import Backtrack.Outcomes
import Mathlib.Data.Set.Defs

/-!
# Honest parsers — no cursor is made up

A cursor is got by taking up a source, by going on from a cursor, or from an outcome; nobody can
make one up. A parser of the caller's own making may keep cursors it has been given, go on from them
and put them into outcomes and values, and that is all. `Parser.Honest` says so: relative to a set
`K` of known cursors, every cursor that the parser ever goes on from or hands out is known, was
given to it, or was found by going on from such a cursor. `Outcomes.Held` says the same of a
suspended sequence.

Which cursors a value has inside is a matter of the values in use and is given by `Carrier`. Parsers
that are put together without walks of the caller's own, over values with no cursors inside, are
honest whatever is known.
-/

namespace Backtrack

variable {σ ε : Type} {ρ : Type → Type} {α β : Type}

theorem forall_mem_none {P : α → Prop} : ∀ a ∈ (none : Option α), P a :=
  fun a ha => absurd ha (Option.not_mem_none a)

/-- Tells which cursors a value has inside. -/
class Carrier (σ : Type) where
  inside : {α : Type} → α → List (Cursor σ)

/-- The way of telling for values that have no cursors inside. -/
abbrev Carrier.none : Carrier σ where
  inside _ := []

variable [Carrier σ]

/-- All cursors inside the value are known. -/
def Knows (K : Set (Cursor σ)) (a : α) : Prop :=
  ∀ c ∈ (Carrier.inside a : List (Cursor σ)), c ∈ K

/-- The cursor of an outcome is known, and so are the cursors inside its value. -/
def Outcome.Known (K : Set (Cursor σ)) (o : Outcome σ α) : Prop :=
  o.cursor ∈ K ∧ Knows K o.value

/-- A walk goes on from known cursors only, and arrives at something that `post` says is known.
    Cursors found on the way are known from then on. -/
def Walk.Honest (post : Set (Cursor σ) → β → Prop) : Walk σ ε β → Set (Cursor σ) → Prop
  | .arrive b,       K => post K b
  | .advance c next, K => c ∈ K ∧ ∀ K', K ⊆ K' → ∀ found : Option (Cursor σ),
      (∀ d ∈ found, d ∈ K') → (next found).Honest post K'
  | .remark _ next,  K => next.Honest post K

/-- Every answer of a script is known. -/
def Script.Honest (script : Script σ ε α) (K : Set (Cursor σ)) : Prop :=
  ∀ n, (script n).Honest (fun K answer => ∀ o ∈ answer, o.Known K) K

/-- A parser makes up no cursor, as long as those in `K` are known. -/
def Parser.Honest : {α : Type} → Parser σ ε ρ α → Set (Cursor σ) → Prop
  | _, .unit a,           K => Knows K a
  | _, .fail,             _ => True
  | _, .anySymbol f,      K => ∀ x, Knows K (f x)
  | _, .testSymbol _ f,   K => ∀ x, Knows K (f x)
  | _, .finish a,         K => Knows K a
  | _, .map f p,          K => p.Honest K ∧ ∀ K', K ⊆ K' → ∀ a, Knows K' a →
      ∀ b, (f a).result = .ok b → Knows K' b
  | _, .filter _ p,       K => p.Honest K
  | _, .bind p next,      K => p.Honest K ∧ ∀ K', K ⊆ K' → ∀ a, Knows K' a → (next a).Honest K'
  | _, .seq f p q,        K => p.Honest K ∧ q.Honest K ∧ ∀ K', K ⊆ K' → ∀ a b, Knows K' a →
      Knows K' b → Knows K' (f a b)
  | _, .or p q,           K => p.Honest K ∧ q.Honest K
  | _, .repetition _ f p, K => p.Honest K ∧ ∀ K', K ⊆ K' → ∀ row, (∀ a ∈ row, Knows K' a) →
      Knows K' (f row)
  | _, .spanning f p,     K => p.Honest K ∧ ∀ K', K ⊆ K' → ∀ a span, Knows K' a →
      Knows K' (f a span)
  | _, .rule _,           _ => True
  | _, .remark _ p,       K => p.Honest K
  | _, .abort _,          _ => True
  | _, .lookahead p,      K => p.Honest K
  | _, .custom start,     K => ∀ K', K ⊆ K' → ∀ c ∈ K',
      (start c).Honest (fun K script => script.Honest K) K'

/-- All rules of a grammar are honest. -/
def Grammar.Honest (G : Grammar σ ε ρ) (K : Set (Cursor σ)) : Prop :=
  ∀ (α : Type) (r : ρ α), (G.body r).Honest K

mutual

/-- A suspended sequence holds known cursors only, and will make up none. -/
def Outcomes.Held : {α : Type} → Outcomes σ ε ρ α → Set (Cursor σ) → Prop
  | _, .ready os,                   K => ∀ o ∈ os, o.Known K
  | _, .consuming f c,              K => c ∈ K ∧ ∀ x, Knows K (f x)
  | _, .scripted script _,          K => script.Honest K
  | _, .mapped f s,                 K => s.Held K ∧ ∀ K', K ⊆ K' → ∀ o, o.Known K' →
      ∀ o', (f o).result = .ok o' → o'.Known K'
  | _, .filtered _ s,               K => s.Held K
  | _, .chained s waiting,          K => s.Held K ∧ ∀ w ∈ waiting, w.1.Honest K ∧ w.2 ∈ K
  | _, .bound next outer inner,     K => outer.Held K ∧ inner.Held K ∧ ∀ K', K ⊆ K' → ∀ a,
      Knows K' a → (next a).Honest K'
  | _, .paired f q outer held inner, K => q.Honest K ∧ outer.Held K ∧ inner.Held K ∧
      (∀ a ∈ held, Knows K a) ∧ ∀ K', K ⊆ K' → ∀ a b, Knows K' a → Knows K' b → Knows K' (f a b)
  | _, .repeating _ f p root frames, K => p.Honest K ∧ frames.Held K ∧ (∀ c ∈ root, c ∈ K) ∧
      ∀ K', K ⊆ K' → ∀ row, (∀ a ∈ row, Knows K' a) → Knows K' (f row)

/-- The same for a row of occurrences. -/
def Frames.Held : {α : Type} → Frames σ ε ρ α → Set (Cursor σ) → Prop
  | _, .bottom,               _ => True
  | _, .push s c value below, K => s.Held K ∧ c ∈ K ∧ (∀ a ∈ value, Knows K a) ∧ below.Held K

end

/-! ## What is known stays known -/

section

variable {K K' : Set (Cursor σ)}

theorem Knows.mono (hK : K ⊆ K') {a : α} (h : Knows K a) : Knows K' a :=
  fun c hc => hK (h c hc)

theorem Outcome.Known.mono (hK : K ⊆ K') {o : Outcome σ α} (h : o.Known K) : o.Known K' :=
  ⟨hK h.1, h.2.mono hK⟩

omit [Carrier σ] in
theorem Walk.Honest.mono {post : Set (Cursor σ) → β → Prop}
    (hpost : ∀ K K' b, K ⊆ K' → post K b → post K' b) (hK : K ⊆ K') {walk : Walk σ ε β}
    (h : walk.Honest post K) : walk.Honest post K' := by
  induction walk generalizing K K' with
  | arrive b => exact hpost K K' b hK h
  | advance c next ih => exact ⟨hK h.1, fun K'' hK'' => h.2 K'' fun _ hc => hK'' (hK hc)⟩
  | remark e next ih => exact ih hK h

theorem Script.Honest.mono (hK : K ⊆ K') {script : Script σ ε α} (h : script.Honest K) :
    script.Honest K' :=
  fun n => (h n).mono (fun _ _ _ hK h o ho => (h o ho).mono hK) hK

theorem Parser.Honest.mono (hK : K ⊆ K') {p : Parser σ ε ρ α} (h : p.Honest K) : p.Honest K' := by
  -- what is asked of every greater set holds for those that are greater than the greater one
  have up : ∀ {P : Set (Cursor σ) → Prop}, (∀ K'', K ⊆ K'' → P K'') → ∀ K'', K' ⊆ K'' → P K'' :=
    fun h K'' hK'' => h K'' fun _ hc => hK'' (hK hc)
  induction p with
  | unit a => exact Knows.mono hK h
  | fail => trivial
  | anySymbol f => exact fun x => (h x).mono hK
  | testSymbol test f => exact fun x => (h x).mono hK
  | finish a => exact Knows.mono hK h
  | map f p ih => exact ⟨ih h.1, up h.2⟩
  | filter test p ih => exact ih h
  | bind p next ih _ => exact ⟨ih h.1, up h.2⟩
  | seq f p q ihp ihq => exact ⟨ihp h.1, ihq h.2.1, up h.2.2⟩
  | or p q ihp ihq => exact ⟨ihp h.1, ihq h.2⟩
  | repetition least f p ih => exact ⟨ih h.1, up h.2⟩
  | spanning f p ih => exact ⟨ih h.1, up h.2⟩
  | rule r => trivial
  | remark notes p ih => exact ih h
  | abort x => trivial
  | lookahead p ih => exact ih h
  | custom start => exact up h

theorem Grammar.Honest.mono (hK : K ⊆ K') {G : Grammar σ ε ρ} (h : G.Honest K) : G.Honest K' :=
  fun α r => (h α r).mono hK

mutual

theorem Outcomes.Held.mono (hK : K ⊆ K') : {α : Type} → {s : Outcomes σ ε ρ α} → s.Held K →
    s.Held K'
  | _, .ready _,            h => fun o ho => (h o ho).mono hK
  | _, .consuming _ _,      h => ⟨hK h.1, fun x => (h.2 x).mono hK⟩
  | _, .scripted _ _,       h => Script.Honest.mono hK h
  | _, .mapped _ _,         h => ⟨h.1.mono hK, fun K'' hK'' => h.2 K'' fun _ hc => hK'' (hK hc)⟩
  | _, .filtered _ s,       h => Outcomes.Held.mono hK (s := s) h
  | _, .chained _ _,        h => ⟨h.1.mono hK, fun w hw => ⟨(h.2 w hw).1.mono hK, hK (h.2 w hw).2⟩⟩
  | _, .bound _ _ _,        h =>
      ⟨h.1.mono hK, h.2.1.mono hK, fun K'' hK'' => h.2.2 K'' fun _ hc => hK'' (hK hc)⟩
  | _, .paired _ _ _ _ _,   h =>
      ⟨h.1.mono hK, h.2.1.mono hK, h.2.2.1.mono hK, fun a ha => (h.2.2.2.1 a ha).mono hK,
        fun K'' hK'' => h.2.2.2.2 K'' fun _ hc => hK'' (hK hc)⟩
  | _, .repeating _ _ _ _ _, h =>
      ⟨h.1.mono hK, h.2.1.mono hK, fun c hc => hK (h.2.2.1 c hc),
        fun K'' hK'' => h.2.2.2 K'' fun _ hc => hK'' (hK hc)⟩

theorem Frames.Held.mono (hK : K ⊆ K') : {α : Type} → {frames : Frames σ ε ρ α} →
    frames.Held K → frames.Held K'
  | _, .bottom,       _ => trivial
  | _, .push _ _ _ _, h =>
      ⟨h.1.mono hK, hK h.2.1, fun a ha => (h.2.2.1 a ha).mono hK, h.2.2.2.mono hK⟩

end

theorem Outcomes.held_empty : (Outcomes.empty : Outcomes σ ε ρ α).Held K :=
  List.forall_mem_nil _

theorem Outcomes.held_deferred {p : Parser σ ε ρ α} {c : Cursor σ} (hp : p.Honest K)
    (hc : c ∈ K) : (Outcomes.deferred p c).Held K := by
  refine ⟨held_empty, fun w hw => ?_⟩
  obtain rfl := List.mem_singleton.mp hw
  exact ⟨hp, hc⟩

/-- The values along a row of known occurrences are known. -/
theorem Frames.Held.values : {frames : Frames σ ε ρ α} → frames.Held K → {tail : List α} →
    (∀ a ∈ tail, Knows K a) → ∀ a ∈ frames.values tail, Knows K a
  | .bottom,              _, _, htail => htail
  | .push _ _ none _,     h, _, htail => h.2.2.2.values htail
  | .push _ _ (some _) _, h, _, htail => h.2.2.2.values fun a ha => by
      rcases List.mem_cons.mp ha with rfl | ha
      · exact h.2.2.1 a rfl
      · exact htail a ha

end

/-! ## Parsers without walks of the caller's own -/

/-- The parser is put together without walks of the caller's own. -/
def Parser.Plain : {α : Type} → Parser σ ε ρ α → Prop
  | _, .unit _           => True
  | _, .fail             => True
  | _, .anySymbol _      => True
  | _, .testSymbol _ _   => True
  | _, .finish _         => True
  | _, .map _ p          => p.Plain
  | _, .filter _ p       => p.Plain
  | _, .bind p next      => p.Plain ∧ ∀ a, (next a).Plain
  | _, .seq _ p q        => p.Plain ∧ q.Plain
  | _, .or p q           => p.Plain ∧ q.Plain
  | _, .repetition _ _ p => p.Plain
  | _, .spanning _ p     => p.Plain
  | _, .rule _           => True
  | _, .remark _ p       => p.Plain
  | _, .abort _          => True
  | _, .lookahead p      => p.Plain
  | _, .custom _         => False

omit [Carrier σ] in
/-- Such a parser makes up no cursor, whatever is known. -/
theorem Parser.Plain.honest {p : Parser σ ε ρ α} (h : p.Plain) (K : Set (Cursor σ)) :
    @Parser.Honest σ ε ρ Carrier.none α p K := by
  let _ : Carrier σ := .none
  have none_inside : ∀ {α : Type} (K : Set (Cursor σ)) (a : α), Knows K a :=
    fun K a c hc => nomatch hc
  induction p generalizing K with
  | unit a => exact none_inside K a
  | fail => trivial
  | anySymbol f => exact fun x => none_inside K _
  | testSymbol test f => exact fun x => none_inside K _
  | finish a => exact none_inside K a
  | map f p ih => exact ⟨ih h K, fun K' _ _ _ b _ => none_inside K' b⟩
  | filter test p ih => exact ih h K
  | bind p next ihp ihnext => exact ⟨ihp h.1 K, fun K' _ a _ => ihnext a (h.2 a) K'⟩
  | seq f p q ihp ihq => exact ⟨ihp h.1 K, ihq h.2 K, fun K' _ _ _ _ _ => none_inside K' _⟩
  | or p q ihp ihq => exact ⟨ihp h.1 K, ihq h.2 K⟩
  | repetition least f p ih => exact ⟨ih h K, fun K' _ _ _ => none_inside K' _⟩
  | spanning f p ih => exact ⟨ih h K, fun K' _ _ _ _ => none_inside K' _⟩
  | rule r => trivial
  | remark notes p ih => exact ih h K
  | abort x => trivial
  | lookahead p ih => exact ih h K
  | custom start => exact nomatch h

end Backtrack

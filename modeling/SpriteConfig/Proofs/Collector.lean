import SpriteConfig.Proofs.Parameters
/-!
# Parameters character by character

Parameters can also be collected while a text is walked along once, with the ones that are complete,
the characters of the one at hand, whether there is one at hand, and the quote that is open. At
every character such a walk is at the same place as reading, and it collects what is read.
-/
namespace SpriteConfig

/-- What a walk along a text has collected. -/
structure Collector where
  parameters : List Text := []
  current : Text := []
  inToken : Bool := false
  quote? : Option Char := none

namespace Collector

def step (s : Collector) (c : Char) : Collector :=
  match s.quote? with
  | some q => if c = q then { s with quote? := none } else { s with current := s.current ++ [c] }
  | none =>
    if Text.isSpace c then
      if s.inToken then
        { s with parameters := s.parameters ++ [s.current], current := [], inToken := false }
      else s
    else if isQuote c then { s with inToken := true, quote? := some c }
    else { s with current := s.current ++ [c], inToken := true }

def walk (t : Text) : Collector := t.foldl step {}

/-- All parameters, when the text after a walk is read as `rest`. -/
def total (s : Collector) (rest : Text × List Text) : List Text :=
  if s.inToken then s.parameters ++ (s.current ++ rest.1) :: rest.2 else s.parameters ++ rest.2

/-- The parameters at the end of a walk. -/
def finish (s : Collector) : List Text :=
  if s.inToken then s.parameters ++ [s.current] else s.parameters

/-- Whether a walk is at a place. -/
inductive IsAt : Collector → Place → Prop
  | between (ps : List Text) : IsAt ⟨ps, [], false, none⟩ .between
  | bare (ps : List Text) (current : Text) : IsAt ⟨ps, current, true, none⟩ .bare
  | quoted (ps : List Text) (current : Text) (q : Char) :
    IsAt ⟨ps, current, true, some q⟩ (.quoted q)

variable {s : Collector} {p : Place}

theorem IsAt.step (hs : s.IsAt p) (c : Char) : (s.step c).IsAt (p.next c) := by
  cases hs with
  | between ps =>
    by_cases hspace : Text.isSpace c
    · simpa [Collector.step, Place.next, hspace] using IsAt.between ps
    · by_cases hquote : isQuote c
      · simpa [Collector.step, Place.next, hspace, hquote] using IsAt.quoted ps [] c
      · simpa [Collector.step, Place.next, hspace, hquote] using IsAt.bare ps [c]
  | bare ps current =>
    by_cases hspace : Text.isSpace c
    · simpa [Collector.step, Place.next, hspace] using IsAt.between (ps ++ [current])
    · by_cases hquote : isQuote c
      · simpa [Collector.step, Place.next, hspace, hquote] using IsAt.quoted ps current c
      · simpa [Collector.step, Place.next, hspace, hquote] using IsAt.bare ps (current ++ [c])
  | quoted ps current q =>
    by_cases hc : c = q
    · simpa [Collector.step, Place.next, hc] using IsAt.bare ps current
    · simpa [Collector.step, Place.next, hc] using IsAt.quoted ps (current ++ [c]) q

theorem IsAt.total_step (hs : s.IsAt p) (c : Char) (t : Text) :
    (s.step c).total (Parameters.readFrom (p.next c) t) =
      s.total (Parameters.readFrom p (c :: t)) := by
  rw [Parameters.readFrom]
  cases hs with
  | between ps =>
    by_cases hspace : Text.isSpace c
    · simp [Collector.step, total, Place.next, hspace]
    · by_cases hquote : isQuote c <;>
        simp [Collector.step, total, Place.next, Place.keeps, hspace, hquote]
  | bare ps current =>
    by_cases hspace : Text.isSpace c
    · simp [Collector.step, total, Place.next, Place.keeps, hspace,
        Parameters.readFrom_between_fst]
    · by_cases hquote : isQuote c <;>
        simp [Collector.step, total, Place.next, Place.keeps, hspace, hquote]
  | quoted ps current q =>
    by_cases hc : c = q <;> simp [Collector.step, total, Place.next, Place.keeps, hc]

/-- A walk comes to the place where reading is, and has collected what reading has. -/
theorem IsAt.foldl (hs : s.IsAt p) (t : Text) :
    (t.foldl Collector.step s).IsAt (p.after t) ∧
      (t.foldl Collector.step s).finish = s.total (Parameters.readFrom p t) := by
  induction t generalizing s p with
  | nil =>
    refine ⟨hs, ?_⟩
    cases hs <;> simp [finish, total, Parameters.readFrom]
  | cons c t ih =>
    obtain ⟨hat, hfinish⟩ := ih (hs.step c)
    exact ⟨hat, hfinish.trans (hs.total_step c t)⟩

theorem isAt_walk (t : Text) : (walk t).IsAt (Place.between.after t) :=
  ((IsAt.between []).foldl t).1

theorem finish_walk (t : Text) : (walk t).finish = Parameters.parse t :=
  ((IsAt.between []).foldl t).2

end Collector
end SpriteConfig

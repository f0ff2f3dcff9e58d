import SpriteConfig.Proofs.Collector
/-!
# Where comments start

Finding a comment and reading parameters walk along a text with the same places. A place lies
between parameters exactly if the text before it is empty or ends in white space, and has no quote
that is still open. So a comment starts at the first `#` after such a text, reading starts anew
there, and the white space before it belongs to no parameter.
-/
namespace SpriteConfig

namespace Text

def EndsInSpace (t : Text) : Prop := ∃ c ∈ t.getLast?, isSpace c = true

theorem endsInSpace_concat {t : Text} {c : Char} :
    (t ++ [c]).EndsInSpace ↔ isSpace c = true := by
  simp [EndsInSpace]

theorem not_endsInSpace_trimEnd (t : Text) : ¬ (trimEnd t).EndsInSpace := by
  rintro ⟨c, hc, hspace⟩
  have hnot := not_of_getLast?_dropTrailing hc
  rw [hspace] at hnot
  cases hnot

end Text

namespace Parameters

section Quotes

/-- The quote that is open behind a character, from the one that is open before it. A quote closes
only a run that the same quote opened. -/
def quoteAfter : Option Char → Char → Option Char
  | none, c => if isQuote c then some c else none
  | some q, c => if c = q then none else some q

def openQuote? (t : Text) : Option Char := t.foldl quoteAfter none

variable {t gap : Text} {c q : Char}

theorem openQuote?_concat (t : Text) (c : Char) :
    openQuote? (t ++ [c]) = quoteAfter (openQuote? t) c := by
  simp [openQuote?]

theorem isQuote_of_openQuote? (h : openQuote? t = some q) : isQuote q = true := by
  induction t using List.reverseRecOn with
  | nil => simp [openQuote?] at h
  | append_singleton t c ih =>
    rw [openQuote?_concat] at h
    cases ht : openQuote? t with
    | none =>
      by_cases hc : isQuote c
      · simp only [ht, quoteAfter, hc, if_true, Option.some.injEq] at h
        rw [← h, hc]
      · simp [ht, quoteAfter, hc] at h
    | some r =>
      by_cases hc : c = r
      · simp [ht, quoteAfter, hc] at h
      · apply ih
        simpa [ht, quoteAfter, hc] using h

theorem isQuote_of_isSpace (h : Text.isSpace c = true) : isQuote c = false := by
  cases hc : isQuote c with
  | true => rw [← h, isSpace_of_isQuote hc]
  | false => rfl

theorem openQuote?_concat_space (t : Text) (hc : Text.isSpace c = true) :
    openQuote? (t ++ [c]) = openQuote? t := by
  have hquote := isQuote_of_isSpace hc
  rw [openQuote?_concat]
  cases ht : openQuote? t with
  | none => simp [quoteAfter, hquote]
  | some q =>
    have hne : c ≠ q := by
      rintro rfl
      rw [isQuote_of_openQuote? ht] at hquote
      cases hquote
    simp [quoteAfter, hne]

theorem openQuote?_append_spaces (t : Text) (h : ∀ c ∈ gap, Text.isSpace c = true) :
    openQuote? (t ++ gap) = openQuote? t := by
  induction gap generalizing t with
  | nil => rw [List.append_nil]
  | cons c gap ih =>
    have hgap := ih (t ++ [c]) fun a ha => h a (List.mem_cons_of_mem _ ha)
    rw [List.append_assoc, List.singleton_append] at hgap
    rw [hgap, openQuote?_concat_space t (h c List.mem_cons_self)]

end Quotes

end Parameters

namespace Place

def quote? : Place → Option Char
  | quoted q => some q
  | between | bare => none

theorem quote?_next (p : Place) (c : Char) :
    (p.next c).quote? = Parameters.quoteAfter p.quote? c := by
  cases p with
  | quoted q =>
    by_cases hc : c = q <;> simp [next, quote?, Parameters.quoteAfter, hc]
  | between | bare =>
    simp only [next, quote?, Parameters.quoteAfter]
    by_cases hspace : Text.isSpace c
    · simp [hspace, Parameters.isQuote_of_isSpace hspace]
    · by_cases hquote : isQuote c <;> simp [hspace, hquote]

theorem quote?_after (t : Text) : (between.after t).quote? = Parameters.openQuote? t := by
  induction t using List.reverseRecOn with
  | nil => rfl
  | append_singleton t c ih =>
    rw [after_append, after_cons, after_nil, quote?_next, ih, Parameters.openQuote?_concat]

theorem keeps_iff {p : Place} {c : Char} (hp : p.quote? = none) :
    p.keeps c = true ↔ Text.isSpace c = false ∧ isQuote c = false := by
  cases p with
  | quoted q => cases hp
  | between | bare => simp [keeps]

theorem next_eq_between_iff {p : Place} {c : Char} :
    p.next c = between ↔ p.quote? = none ∧ Text.isSpace c = true := by
  cases p with
  | quoted q =>
    simp only [next, quote?]
    split <;> simp
  | between | bare =>
    simp only [next, quote?]
    by_cases hspace : Text.isSpace c
    · simp [hspace]
    · by_cases hquote : isQuote c <;> simp [hspace, hquote]

/-- Between parameters is where a text is empty or ends in white space, with all quotes closed. -/
theorem after_eq_between_iff {t : Text} :
    between.after t = between ↔ (t = [] ∨ t.EndsInSpace) ∧ Parameters.openQuote? t = none := by
  rcases List.eq_nil_or_concat' t with rfl | ⟨s, c, rfl⟩
  · simp [Parameters.openQuote?]
  · rw [after_append, after_cons, after_nil, next_eq_between_iff, quote?_after,
      Text.endsInSpace_concat]
    constructor
    · rintro ⟨hquote, hspace⟩
      exact ⟨.inr hspace, by rw [Parameters.openQuote?_concat_space s hspace, hquote]⟩
    · rintro ⟨hspace, hquote⟩
      have hspace : Text.isSpace c = true := by simpa using hspace
      rw [Parameters.openQuote?_concat_space s hspace] at hquote
      exact ⟨hquote, hspace⟩

end Place

namespace Collector

variable {s : Collector} {p : Place}

theorem IsAt.quote?_eq (h : s.IsAt p) : s.quote? = p.quote? := by cases h <;> rfl

theorem IsAt.inToken_eq_false_iff (h : s.IsAt p) : s.inToken = false ↔ p = .between := by
  cases h <;> simp

/-- A walk that collects parameters knows what a search for a comment knows: the quote that is open,
and whether a parameter or a comment can start. -/
theorem walk_agrees (t : Text) :
    (walk t).quote? = Parameters.openQuote? t ∧
      ((walk t).inToken = false ↔ (t = [] ∨ t.EndsInSpace) ∧ Parameters.openQuote? t = none) := by
  have hat := isAt_walk t
  rw [hat.quote?_eq, hat.inToken_eq_false_iff, Place.quote?_after, Place.after_eq_between_iff]
  exact ⟨rfl, Iff.rfl⟩

end Collector

namespace Parameters

section Reading

variable {p : Place} {s gap : Text}

theorem readFrom_append (h : p.after s = .between) (t : Text) :
    readFrom p (s ++ t) = ((readFrom p s).1, (readFrom p s).2 ++ parse t) := by
  induction s generalizing p with
  | nil =>
    obtain rfl : p = .between := h
    exact Prod.ext (readFrom_between_fst t) rfl
  | cons c s ih =>
    have hs := ih (p := p.next c) h
    simp only [List.cons_append, readFrom, hs]
    by_cases hstart : p = .between ∧ p.next c ≠ .between
    · rw [if_pos hstart, if_pos hstart, List.cons_append]
    · rw [if_neg hstart, if_neg hstart]

theorem parse_append (h : Place.between.after s = .between) (t : Text) :
    parse (s ++ t) = parse s ++ parse t := by
  rw [parse, readFrom_append h]
  rfl

theorem readFrom_spaces (hp : p.quote? = none) (h : ∀ c ∈ gap, Text.isSpace c = true) :
    readFrom p gap = ([], []) := by
  induction gap generalizing p with
  | nil => rfl
  | cons c gap ih =>
    have hc := h c List.mem_cons_self
    have hnext : p.next c = .between := Place.next_eq_between_iff.mpr ⟨hp, hc⟩
    have hkeeps : p.keeps c = false := by simp [← Bool.not_eq_true, Place.keeps_iff hp, hc]
    have hgap := ih (p := .between) rfl fun a ha => h a (List.mem_cons_of_mem _ ha)
    simp [readFrom, hnext, hkeeps, hgap]

theorem readFrom_append_spaces (hs : (p.after s).quote? = none)
    (h : ∀ c ∈ gap, Text.isSpace c = true) : readFrom p (s ++ gap) = readFrom p s := by
  induction s generalizing p with
  | nil => exact readFrom_spaces hs h
  | cons c s ih =>
    have hrest := ih (p := p.next c) hs
    rw [List.cons_append, readFrom, readFrom, hrest]

theorem parse_append_spaces (hs : openQuote? s = none) (h : ∀ c ∈ gap, Text.isSpace c = true) :
    parse (s ++ gap) = parse s := by
  rw [← Place.quote?_after] at hs
  rw [parse, parse, readFrom_append_spaces hs h]

end Reading

section Cutting

variable {p : Place} {t before comment : Text}

theorem snd_cutComment_eq_none_iff :
    (cutComment p t).2 = none ↔ ∀ a b, t = a ++ '#' :: b → p.after a ≠ .between := by
  induction t generalizing p with
  | nil => simp [cutComment]
  | cons c t ih =>
    rw [cutComment]
    by_cases hc : p = .between ∧ c = '#'
    · obtain ⟨rfl, rfl⟩ := hc
      simp only [and_self, if_true, reduceCtorEq, false_iff]
      intro hall
      exact hall [] t rfl rfl
    · simp only [hc, if_false, ih]
      constructor
      · intro hall a b hab
        cases a with
        | nil =>
          obtain ⟨rfl, rfl⟩ := List.cons.inj hab
          intro hp
          exact hc ⟨hp, rfl⟩
        | cons d a =>
          obtain ⟨rfl, rfl⟩ := List.cons.inj hab
          exact hall a b rfl
      · intro hall a b hab
        exact hall (c :: a) b (congrArg (c :: ·) hab)

theorem after_of_cutComment (h : cutComment p t = (before, some comment)) :
    p.after before = .between ∧ (cutComment p before).2 = none := by
  induction t generalizing p before with
  | nil => simp [cutComment] at h
  | cons c t ih =>
    rw [cutComment] at h
    by_cases hc : p = .between ∧ c = '#'
    · rw [if_pos hc, Prod.mk.injEq] at h
      rw [← h.1]
      exact ⟨hc.1, rfl⟩
    · rw [if_neg hc, Prod.mk.injEq] at h
      obtain ⟨rfl, hcomment⟩ := h
      obtain ⟨hbetween, hnone⟩ := ih (Prod.ext rfl hcomment)
      rw [Place.after_cons, cutComment, if_neg hc]
      exact ⟨hbetween, hnone⟩

theorem snd_cutComment_of_append {s : Text} (h : (cutComment p (s ++ t)).2 = none) :
    (cutComment p s).2 = none := by
  rw [snd_cutComment_eq_none_iff] at h ⊢
  intro a b hab
  apply h a (b ++ t)
  rw [hab, List.append_assoc, List.cons_append]

theorem splitComment_eq_none_iff :
    splitComment t = (before, none) ↔ before = t ∧ (cutComment .between t).2 = none := by
  have happend := cutComment_append .between t
  rw [splitComment]
  split
  · next hcut => simp [hcut]
  · next whole hcut =>
    have hwhole : whole = t := by simpa [hcut] using happend
    simp [hcut, hwhole, eq_comm]

theorem exists_cutComment (h : splitComment t = (before, some comment)) :
    ∃ gap, cutComment .between t = (before ++ gap, some comment) ∧
      t = before ++ gap ++ comment ∧ ∀ a ∈ gap, Text.isSpace a = true := by
  have happend := cutComment_append .between t
  rw [splitComment] at h
  split at h
  · next whole _ hcut =>
    simp only [Prod.mk.injEq, Option.some.injEq] at h
    obtain ⟨rfl, rfl⟩ := h
    obtain ⟨gap, hwhole, hgap⟩ := exists_dropTrailing_append Text.isSpace whole
    rw [← Text.trimEnd] at hwhole
    rw [hcut, Option.getD_some] at happend
    exact ⟨gap, by rw [hcut, ← hwhole], by rw [← hwhole, happend], hgap⟩
  · simp at h

theorem not_endsInSpace_of_splitComment (h : splitComment t = (before, some comment)) :
    ¬ before.EndsInSpace := by
  rw [splitComment] at h
  split at h
  · simp only [Prod.mk.injEq] at h
    rw [← h.1]
    exact Text.not_endsInSpace_trimEnd _
  · simp at h

/-- Finding a comment and reading parameters agree. -/
theorem parse_of_splitComment (h : splitComment t = (before, some comment)) :
    parse t = parse before ++ parse comment := by
  obtain ⟨gap, hcut, ht, hgap⟩ := exists_cutComment h
  have hbetween := (after_of_cutComment hcut).1
  have hclosed : openQuote? before = none := by
    rw [← openQuote?_append_spaces before hgap]
    exact (Place.after_eq_between_iff.mp hbetween).2
  rw [ht, parse_append hbetween, parse_append_spaces hclosed hgap]

/-- A comment and the parameters before it make up a text, with white space between them that
belongs to neither. The parameters hold no comment, and both parts are read as they are in the text.
A text holds no comment exactly if every `#` in it comes after another character than white space
or after a quote that is still open. A walk that collects the parameters one character at a time is
outside of them, with no quote open, exactly where a comment can start. -/
theorem splitComment_agrees (t : Text) :
    (∀ before comment, splitComment t = (before, some comment) →
      comment.head? = some '#' ∧
        (∃ gap, t = before ++ gap ++ comment ∧ ∀ c ∈ gap, Text.isSpace c = true) ∧
        ¬ before.EndsInSpace ∧ splitComment before = (before, none) ∧
        parse t = parse before ++ parse comment) ∧
      (∀ before, splitComment t = (before, none) ↔
        before = t ∧ ∀ a b, t = a ++ b → b.head? = some '#' → a = [] ∨ a.EndsInSpace →
          openQuote? a ≠ none) ∧
      (Collector.walk t).finish = parse t ∧
      ∀ a b, t = a ++ b → (Collector.walk a).quote? = openQuote? a ∧
        ((Collector.walk a).inToken = false ↔
          (a = [] ∨ a.EndsInSpace) ∧ openQuote? a = none) := by
  refine ⟨?_, ?_, Collector.finish_walk t, fun a _ _ => Collector.walk_agrees a⟩
  · intro before comment h
    obtain ⟨gap, hcut, ht, hgap⟩ := exists_cutComment h
    obtain ⟨rest, rfl⟩ := head_of_cutComment (congrArg Prod.snd hcut)
    have hnone := snd_cutComment_of_append (after_of_cutComment hcut).2
    exact ⟨rfl, ⟨gap, ht, hgap⟩, not_endsInSpace_of_splitComment h,
      splitComment_eq_none_iff.mpr ⟨rfl, hnone⟩, parse_of_splitComment h⟩
  · intro before
    rw [splitComment_eq_none_iff, snd_cutComment_eq_none_iff]
    apply and_congr_right
    rintro -
    constructor
    · intro h a b hab hhead hspace hclosed
      cases b with
      | nil => simp at hhead
      | cons c b =>
        obtain rfl : c = '#' := Option.some.inj hhead
        exact h a b hab (Place.after_eq_between_iff.mpr ⟨hspace, hclosed⟩)
    · intro h a b hab hbetween
      obtain ⟨hspace, hclosed⟩ := Place.after_eq_between_iff.mp hbetween
      exact h a ('#' :: b) hab rfl hspace hclosed

/-- A `#` in a quoted run starts no comment, nor does one right after such a run. The white space
before the comment need not be a space, and a quote in the comment stays open in it alone. -/
theorem splitComment_agrees_quoted_runs :
    let t : Text := "a 'b #c'\"d\"# 'e'\u00A0 #f \"g".toList
    let before : Text := "a 'b #c'\"d\"# 'e'".toList
    let comment : Text := "#f \"g".toList
    splitComment t = (before, some comment) ∧ splitComment before = (before, none) ∧
      ¬ before.EndsInSpace ∧ parse t = parse before ++ parse comment ∧
      ∀ a b, before = a ++ b → b.head? = some '#' → a = [] ∨ a.EndsInSpace →
        openQuote? a ≠ none := by
  intro t before comment
  have h : splitComment t = (before, some comment) := by decide
  obtain ⟨-, -, hspace, hnone, hparse⟩ := (splitComment_agrees t).1 before comment h
  exact ⟨h, hnone, hspace, hparse, ((splitComment_agrees before).2.1 before |>.mp hnone).2⟩

end Cutting

end Parameters
end SpriteConfig

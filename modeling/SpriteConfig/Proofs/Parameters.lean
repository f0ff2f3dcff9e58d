import Mathlib.Data.List.Basic
import SpriteConfig.Parameters.Comment
import SpriteConfig.Parameters.Reading
import SpriteConfig.Parameters.Writing
import SpriteConfig.Proofs.LineBreak
/-!
# Values that are written and read

A written value runs from one bare place to another, whatever comes after it. So it is read back as
it is, and a comment is found after the written values and nowhere in them.
-/
namespace SpriteConfig

namespace Text

theorem trimStart_cons {c : Char} (h : isSpace c = false) (t : Text) :
    trimStart (c :: t) = c :: t := by
  rw [trimStart, List.dropWhile_cons_of_neg (by simp [h])]

theorem trimStart_space (t : Text) : trimStart (' ' :: t) = trimStart t := by
  rw [trimStart, List.dropWhile_cons_of_pos (by decide)]
  rfl

end Text

theorem dropTrailing_append_pos {α : Type} {p : α → Bool} {a : α} (h : p a = true) (as : List α) :
    dropTrailing p (as ++ [a]) = dropTrailing p as := by
  induction as with
  | nil => simp [dropTrailing, h]
  | cons b as ih => rw [List.cons_append, dropTrailing, ih, dropTrailing]

theorem dropTrailing_append_neg {α : Type} {p : α → Bool} {a : α} (h : p a = false) (as : List α) :
    dropTrailing p (as ++ [a]) = as ++ [a] := by
  induction as with
  | nil => simp [dropTrailing, h]
  | cons b as ih =>
    rw [List.cons_append, dropTrailing, ih]
    cases as <;> rfl

theorem exists_dropTrailing_append {α : Type} (p : α → Bool) (as : List α) :
    ∃ bs, as = dropTrailing p as ++ bs ∧ ∀ b ∈ bs, p b = true := by
  induction as using List.reverseRecOn with
  | nil => exact ⟨[], rfl, by simp⟩
  | append_singleton as a ih =>
    cases ha : p a with
    | true =>
      obtain ⟨bs, hbs, hp⟩ := ih
      refine ⟨bs ++ [a], ?_, ?_⟩
      · rw [dropTrailing_append_pos ha, ← List.append_assoc, ← hbs]
      · simpa [or_imp, forall_and, ha] using hp
    | false => exact ⟨[], by rw [dropTrailing_append_neg ha, List.append_nil], by simp⟩

theorem not_of_getLast?_dropTrailing {α : Type} {p : α → Bool} {as : List α} {a : α}
    (h : (dropTrailing p as).getLast? = some a) : p a = false := by
  induction as using List.reverseRecOn with
  | nil => simp [dropTrailing] at h
  | append_singleton as b ih =>
    cases hb : p b with
    | true =>
      rw [dropTrailing_append_pos hb] at h
      exact ih h
    | false =>
      rw [dropTrailing_append_neg hb, List.getLast?_concat] at h
      rw [← Option.some.inj h, hb]

namespace Parameters

theorem isQuote_iff {c : Char} : isQuote c = true ↔ c = '"' ∨ c = '\'' := by
  simp [isQuote]

theorem isSpace_of_isQuote {c : Char} (h : isQuote c = true) : Text.isSpace c = false := by
  rcases isQuote_iff.mp h with rfl | rfl <;> decide

theorem isQuote_quoteFor {quote? : Option Char} (h : ∀ q, quote? = some q → isQuote q = true)
    (c : Char) : isQuote (quoteFor quote? c) = true := by
  rw [quoteFor]
  split
  · rfl
  · split
    · rfl
    · cases quote? with
      | none => rfl
      | some q => exact h q rfl

theorem ne_quoteFor {quote? : Option Char} (h : ∀ q, quote? = some q → isQuote q = true)
    (c : Char) : c ≠ quoteFor quote? c := by
  rw [quoteFor]
  split
  · next hc => simp [hc]
  · next hdouble =>
    split
    · next hc => simp [hc]
    · next hsingle =>
      cases quote? with
      | none => exact hdouble
      | some q =>
        rintro rfl
        have hquote := h c rfl
        simp [isQuote, hdouble, hsingle] at hquote

/-- Whether a value needs no quotes. -/
structure IsBare (v : Text) : Prop where
  ne_nil : v ≠ []
  head_ne : v.head? ≠ some '#'
  plain : ∀ c ∈ v, Text.isSpace c = false ∧ isQuote c = false

theorem mustQuote_eq_false_iff {v : Text} : mustQuote v = false ↔ IsBare v := by
  simp only [mustQuote, Bool.or_eq_false_iff, List.isEmpty_eq_false_iff, decide_eq_false_iff_not,
    List.any_eq_false, Bool.not_eq_true, and_assoc]
  exact ⟨fun ⟨hne, hhead, hv⟩ => ⟨hne, hhead, hv⟩, fun h => ⟨h.ne_nil, h.head_ne, h.plain⟩⟩

theorem quote_of_isBare {v : Text} (h : IsBare v) : quote v = v := by
  rw [quote, mustQuote_eq_false_iff.mpr h]
  rfl

/-- A value is written as it is, or between two quotes of a kind that it does not hold, or, if it
holds both kinds, as quoted runs. -/
theorem quote_cases (v : Text) :
    IsBare v ∧ quote v = v ∨ (∃ q, isQuote q = true ∧ q ∉ v ∧ quote v = q :: v ++ [q]) ∨
      '"' ∈ v ∧ '\'' ∈ v ∧ quote v = quotedRuns none v := by
  rw [quote]
  split
  · next hbare => exact .inl ⟨mustQuote_eq_false_iff.mp (by simpa using hbare), rfl⟩
  · split
    · next hdouble => exact .inr (.inl ⟨'"', rfl, by simpa using hdouble, rfl⟩)
    · next hdouble =>
      split
      · next hsingle => exact .inr (.inl ⟨'\'', rfl, by simpa using hsingle, rfl⟩)
      · next hsingle => exact .inr (.inr ⟨by simpa using hdouble, by simpa using hsingle, rfl⟩)

theorem quotedRuns_none_cons (c : Char) (v : Text) :
    quotedRuns none (c :: v) = quoteFor none c :: c :: quotedRuns (some (quoteFor none c)) v := by
  simp [quotedRuns]

private theorem mem_quotedRuns {quote? : Option Char} {v : Text} {c : Char}
    (hq : ∀ q, quote? = some q → isQuote q = true) (h : c ∈ quotedRuns quote? v) :
    c ∈ v ∨ isQuote c = true := by
  induction v generalizing quote? with
  | nil => exact .inr (hq c (by simpa [quotedRuns] using h))
  | cons a v ih =>
    have hnew := isQuote_quoteFor hq a
    simp only [quotedRuns] at h
    split at h
    · rcases List.mem_cons.mp h with rfl | h
      · exact .inl List.mem_cons_self
      · exact (ih hq h).imp_left (List.mem_cons_of_mem _)
    · simp only [List.mem_append, List.mem_cons, Option.mem_toList] at h
      rcases h with h | rfl | rfl | h
      · exact .inr (hq c h)
      · exact .inr hnew
      · exact .inl List.mem_cons_self
      · refine (ih (fun q h => ?_) h).imp_left (List.mem_cons_of_mem _)
        exact Option.some.inj h ▸ hnew

theorem mem_quote {v : Text} {c : Char} (h : c ∈ quote v) : c ∈ v ∨ isQuote c = true := by
  rcases quote_cases v with ⟨-, hquote⟩ | ⟨q, hq, -, hquote⟩ | ⟨-, -, hquote⟩
  · exact .inl (hquote ▸ h)
  · simp only [hquote, List.cons_append, List.mem_cons, List.mem_append, List.not_mem_nil,
      or_false] at h
    rcases h with rfl | h | rfl
    · exact .inr hq
    · exact .inl h
    · exact .inr hq
  · rw [hquote] at h
    exact mem_quotedRuns (by simp) h

theorem mem_format {values : List Text} {c : Char} (h : c ∈ format values) :
    c = ' ' ∨ isQuote c = true ∨ ∃ v ∈ values, c ∈ v := by
  rcases Text.mem_join h with h | ⟨p, hp, h⟩
  · exact .inl (List.mem_singleton.mp h)
  · obtain ⟨v, hv, rfl⟩ := List.mem_map.mp hp
    rcases mem_quote h with h | h
    · exact .inr (.inr ⟨v, hv, h⟩)
    · exact .inr (.inl h)

/-- A text that leads from one place to another, whatever comes after it: it is read as `value`,
and holds no start of a comment. -/
structure Runs (p : Place) (s : Text) (p' : Place) (value : Text) : Prop where
  read : ∀ t, readFrom p (s ++ t) = (value ++ (readFrom p' t).1, (readFrom p' t).2)
  cut : ∀ t, cutComment p (s ++ t) = (s ++ (cutComment p' t).1, (cutComment p' t).2)

theorem Runs.nil (p : Place) : Runs p [] p [] := ⟨fun _ => rfl, fun _ => rfl⟩

theorem Runs.char {p : Place} (h : p ≠ .between) (c : Char) :
    Runs p [c] (p.next c) (if p.keeps c then [c] else []) := by
  constructor
  · intro t
    rw [List.singleton_append, readFrom]
    simp only [h, false_and, if_false]
    split <;> rfl
  · intro t
    rw [List.singleton_append, cutComment]
    simp only [h, false_and, if_false]
    rfl

theorem Runs.append {p q r : Place} {s t v w : Text} (h : Runs p s q v) (h' : Runs q t r w) :
    Runs p (s ++ t) r (v ++ w) := by
  constructor
  · intro u
    rw [List.append_assoc, h.read, h'.read, List.append_assoc]
  · intro u
    rw [List.append_assoc, h.cut, h'.cut, List.append_assoc]

theorem Runs.of_keeps {p : Place} (h : p ≠ .between) {s : Text}
    (hs : ∀ c ∈ s, p.next c = p ∧ p.keeps c = true) : Runs p s p s := by
  induction s with
  | nil => exact Runs.nil p
  | cons c s ih =>
    obtain ⟨hnext, hkeeps⟩ := hs c List.mem_cons_self
    have hchar := Runs.char h c
    rw [hnext, if_pos hkeeps] at hchar
    exact hchar.append (ih fun a ha => hs a (List.mem_cons_of_mem _ ha))

theorem Runs.opening {q : Char} (hq : isQuote q = true) : Runs .bare [q] (.quoted q) [] := by
  have hspace := isSpace_of_isQuote hq
  simpa [Place.next, Place.keeps, hspace, hq] using Runs.char (p := .bare) (by simp) q

theorem Runs.closing (q : Char) : Runs (.quoted q) [q] .bare [] := by
  simpa [Place.next, Place.keeps] using Runs.char (p := .quoted q) (by simp) q

theorem Runs.inside {q : Char} {s : Text} (h : q ∉ s) : Runs (.quoted q) s (.quoted q) s := by
  refine Runs.of_keeps (by simp) fun c hc => ?_
  have hne : c ≠ q := fun heq => h (heq ▸ hc)
  simp [Place.next, Place.keeps, hne]

theorem Runs.pair {q : Char} (hq : isQuote q = true) {s : Text} (h : q ∉ s) :
    Runs .bare (q :: s ++ [q]) .bare s := by
  simpa using ((Runs.opening hq).append (Runs.inside h)).append (Runs.closing q)

/-- The place in the run of a quote, or outside of quotes. -/
def placeIn (quote? : Option Char) : Place := (quote?.map Place.quoted).getD .bare

private theorem runs_quotedRuns {quote? : Option Char}
    (hq : ∀ q, quote? = some q → isQuote q = true) (v : Text) :
    Runs (placeIn quote?) (quotedRuns quote? v) .bare v := by
  induction v generalizing quote? with
  | nil =>
    cases quote? with
    | none => exact Runs.nil .bare
    | some q => exact Runs.closing q
  | cons c v ih =>
    have hnew := isQuote_quoteFor hq c
    have hne := ne_quoteFor hq c
    have hchar : Runs (.quoted (quoteFor quote? c)) [c] (.quoted (quoteFor quote? c)) [c] :=
      Runs.inside (by simpa using hne.symm)
    have hclose : Runs (placeIn quote?) quote?.toList .bare [] := by
      cases quote? with
      | none => exact Runs.nil .bare
      | some q => exact Runs.closing q
    simp only [quotedRuns]
    split
    · next hsame =>
      rw [hsame]
      exact hchar.append (ih fun q h => Option.some.inj h ▸ hnew)
    · have hrest : Runs (placeIn (some (quoteFor quote? c)))
          (quotedRuns (some (quoteFor quote? c)) v) .bare v :=
        ih fun q h => Option.some.inj h ▸ hnew
      exact hclose.append ((Runs.opening hnew).append (hchar.append hrest))

theorem runs_quote (v : Text) : Runs .bare (quote v) .bare v := by
  rcases quote_cases v with ⟨hbare, hquote⟩ | ⟨q, hq, hmem, hquote⟩ | ⟨-, -, hquote⟩
  · rw [hquote]
    refine Runs.of_keeps (by simp) fun c hc => ?_
    obtain ⟨hspace, hnot⟩ := hbare.plain c hc
    simp [Place.next, Place.keeps, hspace, hnot]
  · rw [hquote]
    exact Runs.pair hq hmem
  · rw [hquote]
    have hnone : ∀ q, none = some q → isQuote q = true := by simp
    exact runs_quotedRuns hnone v

/-- Whether a text starts with a character that is neither white space nor the start of a
comment. -/
def Starts (s : Text) : Prop := ∃ c t, s = c :: t ∧ Text.isSpace c = false ∧ c ≠ '#'

def Ends (s : Text) : Prop := ∃ t c, s = t ++ [c] ∧ Text.isSpace c = false

theorem Starts.append {s : Text} (h : Starts s) (t : Text) : Starts (s ++ t) := by
  obtain ⟨c, u, rfl, hc⟩ := h
  exact ⟨c, u ++ t, rfl, hc⟩

theorem Ends.append {t : Text} (h : Ends t) (s : Text) : Ends (s ++ t) := by
  obtain ⟨u, c, rfl, hc⟩ := h
  exact ⟨s ++ u, c, (List.append_assoc _ _ _).symm, hc⟩

theorem Starts.trimStart_eq {s : Text} (h : Starts s) : Text.trimStart s = s := by
  obtain ⟨c, t, rfl, hc, -⟩ := h
  exact Text.trimStart_cons hc t

theorem starts_quote_cons {q : Char} (h : isQuote q = true) (t : Text) : Starts (q :: t) := by
  refine ⟨q, t, rfl, isSpace_of_isQuote h, ?_⟩
  rintro rfl
  cases h

theorem starts_quote (v : Text) : Starts (quote v) := by
  rcases quote_cases v with ⟨hbare, hquote⟩ | ⟨q, hq, -, hquote⟩ | ⟨hdouble, -, hquote⟩
  · rw [hquote]
    cases v with
    | nil => exact absurd rfl hbare.ne_nil
    | cons c t =>
      exact ⟨c, t, rfl, (hbare.plain c List.mem_cons_self).1, by simpa using hbare.head_ne⟩
  · rw [hquote]
    exact starts_quote_cons hq _
  · rw [hquote]
    cases v with
    | nil => simp at hdouble
    | cons c t =>
      rw [quotedRuns_none_cons]
      exact starts_quote_cons (isQuote_quoteFor (by simp) c) _

private theorem ends_quotedRuns {q : Char} (hq : isQuote q = true) (v : Text) :
    Ends (quotedRuns (some q) v) := by
  induction v generalizing q with
  | nil => exact ⟨[], q, rfl, isSpace_of_isQuote hq⟩
  | cons c v ih =>
    have hnew := isQuote_quoteFor (fun _ h => Option.some.inj h ▸ hq) c
    simp only [quotedRuns]
    split
    · exact (ih hq).append [c]
    · exact (ih hnew).append [q, quoteFor (some q) c, c]

theorem ends_quote (v : Text) : Ends (quote v) := by
  rcases quote_cases v with ⟨hbare, hquote⟩ | ⟨q, hq, -, hquote⟩ | ⟨hdouble, -, hquote⟩
  · rw [hquote]
    have hlast := List.dropLast_append_getLast hbare.ne_nil
    exact ⟨_, _, hlast.symm, (hbare.plain _ (List.getLast_mem hbare.ne_nil)).1⟩
  · rw [hquote]
    exact ⟨q :: v, q, rfl, isSpace_of_isQuote hq⟩
  · rw [hquote]
    cases v with
    | nil => simp at hdouble
    | cons c t =>
      have hnew : isQuote (quoteFor none c) = true := isQuote_quoteFor (by simp) c
      rw [quotedRuns_none_cons]
      exact (ends_quotedRuns hnew t).append [quoteFor none c, c]

theorem format_cons_cons (v w : Text) (vs : List Text) :
    format (v :: w :: vs) = quote v ++ [' '] ++ format (w :: vs) := rfl

theorem format_singleton (v : Text) : format [v] = quote v := rfl

theorem starts_format {values : List Text} (hne : values ≠ []) : Starts (format values) := by
  cases values with
  | nil => exact absurd rfl hne
  | cons v vs =>
    cases vs with
    | nil => exact starts_quote v
    | cons w vs =>
      rw [format_cons_cons, List.append_assoc]
      exact (starts_quote v).append _

theorem ends_format {values : List Text} (hne : values ≠ []) : Ends (format values) := by
  induction values with
  | nil => exact absurd rfl hne
  | cons v vs ih =>
    cases vs with
    | nil => exact ends_quote v
    | cons w vs =>
      rw [format_cons_cons]
      exact (ih (List.cons_ne_nil w vs)).append _

private theorem next_between_ne {c : Char} (h : Text.isSpace c = false) :
    Place.between.next c ≠ .between := by
  simp only [Place.next, h, Bool.false_eq_true, if_false]
  split <;> simp

private theorem readFrom_starts {s : Text} (h : Starts s) :
    readFrom .between s = ([], (readFrom .bare s).1 :: (readFrom .bare s).2) := by
  obtain ⟨c, t, rfl, hc, -⟩ := h
  have hnext : Place.between.next c = Place.bare.next c := rfl
  have hne : Place.bare.next c ≠ .between := next_between_ne hc
  have hkeeps : Place.between.keeps c = Place.bare.keeps c := rfl
  simp only [readFrom, hnext, hkeeps]
  simp [hne]

private theorem cutComment_starts {s : Text} (h : Starts s) :
    cutComment .between s = cutComment .bare s := by
  obtain ⟨c, t, rfl, -, hc⟩ := h
  have hnext : Place.between.next c = Place.bare.next c := rfl
  simp only [cutComment, hnext, hc]
  simp

theorem readFrom_between_fst (t : Text) : (readFrom .between t).1 = [] := by
  induction t with
  | nil => rfl
  | cons c t ih =>
    rw [readFrom]
    cases hc : Text.isSpace c with
    | true => simp [Place.next, Place.keeps, hc, ih]
    | false => simp [next_between_ne hc]

private theorem readFrom_bare_space (t : Text) : readFrom .bare (' ' :: t) = ([], parse t) := by
  have hnext : Place.bare.next ' ' = .between := by decide
  have hkeeps : Place.bare.keeps ' ' = false := by decide
  simp only [readFrom, hnext, hkeeps]
  simp [readFrom_between_fst, parse]

private theorem parse_quote_append (v t : Text) :
    parse (quote v ++ t) = (v ++ (readFrom .bare t).1) :: (readFrom .bare t).2 := by
  rw [parse, readFrom_starts ((starts_quote v).append t), (runs_quote v).read]

theorem parse_format (values : List Text) : parse (format values) = values := by
  induction values with
  | nil => rfl
  | cons v vs ih =>
    cases vs with
    | nil => simpa [format_singleton, readFrom] using parse_quote_append v []
    | cons w vs =>
      rw [format_cons_cons, List.append_assoc, parse_quote_append, List.singleton_append,
        readFrom_bare_space, ih, List.append_nil]

private theorem cutComment_bare_space (t : Text) :
    cutComment .bare (' ' :: t) =
      (' ' :: (cutComment .between t).1, (cutComment .between t).2) := by
  have hnext : Place.bare.next ' ' = .between := by decide
  rw [cutComment, hnext]
  rfl

private theorem cutComment_format_append {values : List Text} (hne : values ≠ []) (t : Text) :
    cutComment .between (format values ++ t) =
      (format values ++ (cutComment .bare t).1, (cutComment .bare t).2) := by
  induction values with
  | nil => exact absurd rfl hne
  | cons v vs ih =>
    rw [cutComment_starts ((starts_format hne).append t)]
    cases vs with
    | nil => exact (runs_quote v).cut t
    | cons w vs =>
      have hrest := ih (List.cons_ne_nil w vs)
      rw [format_cons_cons, List.append_assoc, List.append_assoc, (runs_quote v).cut,
        List.singleton_append, cutComment_bare_space, hrest]
      simp

theorem splitComment_format (values : List Text) :
    splitComment (format values) = (format values, none) := by
  cases values with
  | nil => rfl
  | cons v vs =>
    have hcut := cutComment_format_append (List.cons_ne_nil v vs) []
    simp only [List.append_nil, cutComment] at hcut
    rw [splitComment, hcut]

theorem splitComment_format_append {values : List Text} (hne : values ≠ []) (comment : Text) :
    splitComment (format values ++ ' ' :: '#' :: comment) =
      (format values, some ('#' :: comment)) := by
  have hcut := cutComment_format_append hne (' ' :: '#' :: comment)
  rw [cutComment_bare_space] at hcut
  simp only [cutComment, and_self, if_true] at hcut
  obtain ⟨t, c, ht, hc⟩ := ends_format hne
  have htrim : Text.trimEnd (format values ++ [' ']) = format values := by
    rw [Text.trimEnd, dropTrailing_append_pos (by decide), ht, dropTrailing_append_neg hc]
  rw [splitComment, hcut]
  simp only [htrim]

/-- Written values are read back as they are and hold no comment, and a comment that is written after
them is told apart from them. -/
theorem format_round_trips (values : List Text) :
    parse (format values) = values ∧ splitComment (format values) = (format values, none) ∧
      ∀ comment : Text, values ≠ [] → comment.head? = some '#' →
        splitComment (format values ++ ' ' :: comment) = (format values, some comment) := by
  refine ⟨parse_format values, splitComment_format values, fun comment hne hhead => ?_⟩
  cases comment with
  | nil => simp at hhead
  | cons c t =>
    obtain rfl : c = '#' := Option.some.inj hhead
    exact splitComment_format_append hne t

/-- A value with both kinds of quotes, one that looks like a comment, an empty one and one with a
line break, with a comment after them. -/
theorem format_round_trips_mixed :
    let values := ["say \"it's\" #1".toList, "#2".toList, [], "a\nb".toList]
    let comment := "# 'c".toList
    values ≠ [] ∧ comment.head? = some '#' ∧ parse (format values) = values ∧
      splitComment (format values ++ ' ' :: comment) = (format values, some comment) := by
  intro values comment
  have hne : values ≠ [] := List.cons_ne_nil _ _
  obtain ⟨hparse, -, hcomment⟩ := format_round_trips values
  exact ⟨hne, rfl, hparse, hcomment comment hne rfl⟩

theorem head_of_cutComment {p : Place} {t comment : Text}
    (h : (cutComment p t).2 = some comment) : ∃ rest, comment = '#' :: rest := by
  induction t generalizing p with
  | nil => simp [cutComment] at h
  | cons c t ih =>
    rw [cutComment] at h
    split at h
    · next hc => exact ⟨t, by rw [← Option.some.inj h, hc.2]⟩
    · exact ih h

theorem splitComment_snd (t : Text) : (splitComment t).2 = (cutComment .between t).2 := by
  rw [splitComment]
  split <;> next h => rw [h]

theorem suffix_of_comment {t comment : Text} (h : (splitComment t).2 = some comment) :
    comment <:+ t := by
  have happend := cutComment_append .between t
  rw [← splitComment_snd, h] at happend
  exact ⟨_, happend⟩

end Parameters
end SpriteConfig

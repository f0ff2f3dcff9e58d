import SpriteConfig.Proofs.Comment
/-!
# When values are quoted

Reading takes every character of a text into some value, except for white space between parameters
and for the quotes of runs. So a text that is read as itself holds neither, and a value is written
bare exactly if it is read back bare, with no comment in it.

Each quoted run adds its two quotes to the value. One run is undone by taking away the quotes around
the text; a value with both kinds of quotes takes more runs than that.
-/
namespace SpriteConfig

namespace Place

/-- The characters of a text that belong to the values of its parameters. -/
def kept : Place → Text → Text
  | _, [] => []
  | p, c :: t => if p.keeps c then c :: kept (p.next c) t else kept (p.next c) t

variable {p : Place} {t : Text} {c : Char}

theorem sublist_kept (p : Place) (t : Text) : (p.kept t).Sublist t := by
  induction t generalizing p with
  | nil => exact List.Sublist.refl []
  | cons c t ih =>
    rw [kept]
    split
    · exact (ih _).cons_cons c
    · exact (ih _).cons c

theorem quote?_next_of_keeps (hp : p.quote? = none) (hc : p.keeps c = true) :
    (p.next c).quote? = none := by
  have hquote := ((keeps_iff hp).mp hc).2
  rw [quote?_next, hp, Parameters.quoteAfter, hquote]
  rfl

/-- Outside of quoted runs, every character of a text belongs to a value exactly if none is white
space or a quote. -/
theorem kept_eq_self_iff (hp : p.quote? = none) :
    p.kept t = t ↔ ∀ c ∈ t, Text.isSpace c = false ∧ isQuote c = false := by
  induction t generalizing p with
  | nil => simp [kept]
  | cons c t ih =>
    rw [List.forall_mem_cons, ← keeps_iff hp, kept]
    cases hc : p.keeps c with
    | true => simp [ih (quote?_next_of_keeps hp hc)]
    | false =>
      have hlength := (sublist_kept (p.next c) t).length_le
      have hne : (p.next c).kept t ≠ c :: t := by
        intro heq
        rw [heq, List.length_cons] at hlength
        exact Nat.not_succ_le_self _ hlength
      simp [hne]

end Place

namespace Parameters

section Bare

variable {v : Text}

/-- Reading loses no character that belongs to a value, and adds none. -/
theorem append_flatten_readFrom (p : Place) (t : Text) :
    (readFrom p t).1 ++ (readFrom p t).2.flatten = p.kept t := by
  induction t generalizing p with
  | nil => rfl
  | cons c t ih =>
    simp only [readFrom, Place.kept, ← ih (p.next c)]
    by_cases hstart : p = .between ∧ p.next c ≠ .between
    · rw [if_pos hstart, List.flatten_cons, List.nil_append]
      split <;> simp
    · rw [if_neg hstart]
      split <;> simp

theorem flatten_parse (t : Text) : (parse t).flatten = Place.between.kept t := by
  rw [← append_flatten_readFrom, readFrom_between_fst, List.nil_append, parse]

theorem of_parse_eq_singleton (h : parse v = [v]) :
    v ≠ [] ∧ ∀ c ∈ v, Text.isSpace c = false ∧ isQuote c = false := by
  constructor
  · rintro rfl
    cases h
  · have hkept : Place.between.kept v = v := by
      rw [← flatten_parse, h, List.flatten_singleton]
    exact (Place.kept_eq_self_iff rfl).mp hkept

theorem head?_ne_of_snd_splitComment (h : (splitComment v).2 = none) : v.head? ≠ some '#' := by
  intro hhead
  obtain ⟨t, rfl⟩ := List.head?_eq_some_iff.mp hhead
  rw [splitComment_snd, snd_cutComment_eq_none_iff] at h
  exact h [] t rfl rfl

/-- A value is written as it is exactly if the bare value is read as itself and holds no comment. -/
theorem quote_eq_self_iff (v : Text) :
    quote v = v ↔ parse v = [v] ∧ (splitComment v).2 = none := by
  constructor
  · intro hbare
    have hformat : format [v] = v := by rw [format_singleton, hbare]
    have hparse := parse_format [v]
    have hcomment := splitComment_format [v]
    rw [hformat] at hparse hcomment
    exact ⟨hparse, congrArg Prod.snd hcomment⟩
  · rintro ⟨hparse, hcomment⟩
    obtain ⟨hne, hv⟩ := of_parse_eq_singleton hparse
    exact quote_of_isBare ⟨hne, head?_ne_of_snd_splitComment hcomment, hv⟩

end Bare

section Runs

variable {quote? : Option Char} {q : Char} {v : Text}

/-- The number of runs that are opened while characters are written as quoted runs, the first of
them in the run of `quote?`. -/
def openedRuns : Option Char → Text → Nat
  | _, [] => 0
  | quote?, c :: t =>
    let q := quoteFor quote? c
    if quote? = some q then openedRuns quote? t else openedRuns (some q) t + 1

theorem length_quotedRuns (quote? : Option Char) (v : Text) :
    (quotedRuns quote? v).length =
      v.length + 2 * openedRuns quote? v + quote?.toList.length := by
  induction v generalizing quote? with
  | nil => simp [quotedRuns, openedRuns]
  | cons c v ih =>
    simp only [quotedRuns, openedRuns]
    split
    · simp only [List.length_cons, ih]
      omega
    · simp only [List.length_append, List.length_cons, ih, Option.toList_some, List.length_nil]
      omega

theorem openedRuns_pos (hq : isQuote q = true) (hmem : q ∈ v) : 0 < openedRuns (some q) v := by
  induction v with
  | nil => simp at hmem
  | cons c v ih =>
    simp only [openedRuns]
    split
    · next hsame =>
      have hne := ne_quoteFor (fun _ h => Option.some.inj h ▸ hq) c
      rw [← Option.some.inj hsame] at hne
      exact ih (List.mem_of_ne_of_mem hne.symm hmem)
    · exact Nat.succ_pos _

theorem two_le_openedRuns (hdouble : '"' ∈ v) (hsingle : '\'' ∈ v) : 2 ≤ openedRuns none v := by
  cases v with
  | nil => simp at hdouble
  | cons c v =>
    have hfirst : isQuote (quoteFor none c) = true := isQuote_quoteFor (by simp) c
    have hne : c ≠ quoteFor none c := ne_quoteFor (by simp) c
    have hmem : quoteFor none c ∈ c :: v := by
      rcases isQuote_iff.mp hfirst with heq | heq
      · rw [heq]
        exact hdouble
      · rw [heq]
        exact hsingle
    have hrest := openedRuns_pos hfirst (List.mem_of_ne_of_mem hne.symm hmem)
    simp only [openedRuns, reduceCtorEq, if_false]
    omega

theorem length_le_length_unquote (t : Text) : t.length ≤ (unquote t).length + 2 := by
  cases t with
  | nil => simp
  | cons c t =>
    rw [unquote]
    split
    · simp only [List.length_cons, List.length_dropLast]
      omega
    · omega

theorem unquote_pair (hq : isQuote q = true) (v : Text) : unquote (q :: v ++ [q]) = v := by
  simp [unquote, hq]

theorem unquote_of_not_isQuote (h : ∀ c ∈ v, isQuote c = false) : unquote v = v := by
  cases v with
  | nil => rfl
  | cons c v => simp [unquote, h c List.mem_cons_self]

/-- Taking away the quotes around a written value gives the value back exactly if it does not hold
both kinds of quotes. -/
theorem unquote_quote_iff (v : Text) : unquote (quote v) = v ↔ ¬ ('"' ∈ v ∧ '\'' ∈ v) := by
  rcases quote_cases v with ⟨hbare, hquote⟩ | ⟨q, hq, hmem, hquote⟩ | ⟨hdouble, hsingle, hquote⟩
  · rw [hquote]
    refine iff_of_true (unquote_of_not_isQuote fun c hc => (hbare.plain c hc).2) ?_
    rintro ⟨hdouble, -⟩
    exact absurd (hbare.plain '"' hdouble).2 (by decide)
  · rw [hquote]
    refine iff_of_true (unquote_pair hq v) ?_
    rintro ⟨hdouble, hsingle⟩
    rcases isQuote_iff.mp hq with rfl | rfl
    · exact hmem hdouble
    · exact hmem hsingle
  · refine iff_of_false (fun hback => ?_) fun hmixed => hmixed ⟨hdouble, hsingle⟩
    -- Four quotes or more were added, and two at most are taken away.
    have hruns := two_le_openedRuns hdouble hsingle
    have hlength := length_quotedRuns none v
    have hunquote := length_le_length_unquote (quote v)
    rw [hback, hquote] at hunquote
    omega

/-- The quotes at the ends may be equal and still be of different runs. -/
example : unquote (quote "'x\"y'".toList) = "'x\"'\"y'\"'".toList := by decide

end Runs

end Parameters
end SpriteConfig

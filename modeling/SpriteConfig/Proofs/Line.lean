import SpriteConfig.Line
import SpriteConfig.Proofs.LineBreak
import SpriteConfig.Proofs.Parameters
/-!
# The parts of a line

A definition line consists of its indentation, its definition and the rest. Reading the parameters
of such a line never fails, and writing them anew changes the rest alone.
-/
namespace SpriteConfig
namespace Text

def IsIndentation (t : Text) : Prop := ∀ c ∈ t, isIndent c = true

instance (t : Text) : Decidable t.IsIndentation :=
  decidable_of_iff (t.all isIndent = true) List.all_eq_true

/-- Whether a text can be read as a definition: it is not empty, holds no space and no tab, and
does not look like a comment. -/
structure IsWord (t : Text) : Prop where
  ne_nil : t ≠ []
  not_isIndent : ∀ c ∈ t, isIndent c = false
  head_ne : t.head? ≠ some '#'

instance (t : Text) : Decidable t.IsWord :=
  decidable_of_iff (t ≠ [] ∧ t.all (!isIndent ·) = true ∧ t.head? ≠ some '#')
    ⟨fun h => ⟨h.1, by simpa using h.2.1, h.2.2⟩,
      fun h => ⟨h.ne_nil, by simpa using h.not_isIndent, h.head_ne⟩⟩

theorem IsIndentation.byteLength_eq {t : Text} (h : t.IsIndentation) : byteLength t = t.length := by
  induction t with
  | nil => rfl
  | cons c t ih =>
    have hc : c.utf8Size = 1 := by
      have := h c List.mem_cons_self
      simp only [isIndent, Bool.or_eq_true, decide_eq_true_eq] at this
      rcases this with rfl | rfl <;> rfl
    rw [byteLength, hc, ih fun a ha => h a (List.mem_cons_of_mem _ ha), List.length_cons,
      Nat.add_comm]

theorem isIndentation_takeWhile (t : Text) : IsIndentation (t.takeWhile isIndent) :=
  fun _ hc => List.all_eq_true.mp List.all_takeWhile _ hc

theorem takeWhile_isIndent {ws t : Text} (h : ws.IsIndentation)
    (ht : ∀ c, t.head? = some c → isIndent c = false) : (ws ++ t).takeWhile isIndent = ws := by
  rw [List.takeWhile_append_of_pos h]
  cases t with
  | nil => simp
  | cons c t => simp [ht c rfl]

theorem dropWhile_isIndent {ws t : Text} (h : ws.IsIndentation)
    (ht : ∀ c, t.head? = some c → isIndent c = false) : (ws ++ t).dropWhile isIndent = t := by
  rw [List.dropWhile_append_of_pos h]
  cases t with
  | nil => rfl
  | cons c t => simp [ht c rfl]

theorem IsWord.head_not_isIndent {t : Text} (h : t.IsWord) (rest : Text) :
    ∀ c, (t ++ rest).head? = some c → isIndent c = false := by
  intro c hc
  cases t with
  | nil => exact absurd rfl h.ne_nil
  | cons a t =>
    simp only [List.cons_append, List.head?_cons, Option.some.injEq] at hc
    exact h.not_isIndent c (by simp [hc])

end Text

namespace Line

/-- The line consists of an indentation, its definition, and a rest. -/
structure Reads (l : Line) (indent rest : Text) : Prop where
  text_eq : l.text = indent ++ l.definition ++ rest
  isIndentation : indent.IsIndentation
  level_eq : l.level = indent.length

/-- Whether the level and the definition of a line are found in its text. -/
def Shaped (l : Line) : Prop := l.isDefinition = true → ∃ indent rest, l.Reads indent rest

/-- What is written after the definition: the parameters and the comment. -/
def tail (values : List Text) (comment : Option Text) : Text :=
  (if values.isEmpty then [] else ' ' :: Parameters.format values) ++
    (match comment with
    | none => []
    | some comment => ' ' :: comment)

theorem isIndentation_indent (l : Line) : l.indent.IsIndentation :=
  fun c hc => Text.isIndentation_takeWhile l.text c (List.mem_of_mem_take hc)

theorem exists_cut_indent (l : Line) :
    ∃ rest, Text.cut? (min (l.text.takeWhile Text.isIndent).length l.level) l.text = some rest ∧
      l.text = l.indent ++ rest := by
  have htext : l.text = l.indent ++ l.text.drop l.indent.length := by
    have hprefix : l.indent <+: l.text :=
      (List.take_prefix _ _).trans (List.takeWhile_prefix _)
    exact (List.prefix_iff_eq_append.mp hprefix).symm
  have hlen : min (l.text.takeWhile Text.isIndent).length l.level = Text.byteLength l.indent := by
    rw [l.isIndentation_indent.byteLength_eq, indent, List.length_take, Nat.min_comm]
  refine ⟨l.text.drop l.indent.length, ?_, htext⟩
  rw [hlen]
  calc Text.cut? (Text.byteLength l.indent) l.text
      = Text.cut? (Text.byteLength l.indent) (l.indent ++ l.text.drop l.indent.length) := by
        rw [← htext]
    _ = some (l.text.drop l.indent.length) := Text.cut?_append _ _

variable {l : Line} {indent rest : Text}

theorem Reads.afterDefinition_eq (h : l.Reads indent rest) (hd : l.isDefinition = true) :
    l.afterDefinition = .ok (Parameters.splitComment (Text.trimStart rest)) := by
  have hcut : Text.cut? (l.level + Text.byteLength l.definition) l.text = some rest := by
    rw [h.text_eq, h.level_eq, ← h.isIndentation.byteLength_eq, ← Text.byteLength_append]
    exact Text.cut?_append _ _
  rw [afterDefinition, if_pos hd]
  simp only [hcut]

theorem Reads.indent_eq (h : l.Reads indent rest) : l.indent = indent := by
  rw [Line.indent, h.level_eq, h.text_eq, List.append_assoc,
    List.takeWhile_append_of_pos h.isIndentation, List.take_left]

theorem Reads.withParameters (h : l.Reads indent rest) (values : List Text)
    (comment : Option Text) :
    (l.withParameters values comment).Reads indent (tail values comment) := by
  refine ⟨?_, h.isIndentation, h.level_eq⟩
  change l.indent ++ l.definition ++ _ ++ _ = indent ++ l.definition ++ tail values comment
  rw [h.indent_eq, List.append_assoc (indent ++ l.definition)]
  rfl

theorem Reads.setParameters_eq (h : l.Reads indent rest) (hd : l.isDefinition = true)
    (values : List Text) :
    l.setParameters values = .ok
      (l.withParameters values (Parameters.splitComment (Text.trimStart rest)).2) := by
  rw [setParameters, if_pos hd, h.afterDefinition_eq hd]
  rfl

private theorem splitComment_trimStart_tail (values : List Text) {comment : Option Text}
    (hc : ∀ k, comment = some k → ∃ rest, k = '#' :: rest) :
    Parameters.splitComment (Text.trimStart (tail values comment)) =
      (Parameters.format values, comment) := by
  cases values with
  | nil =>
    cases comment with
    | none => rfl
    | some k =>
      obtain ⟨rest, rfl⟩ := hc k rfl
      rfl
  | cons v vs =>
    have hne := List.cons_ne_nil v vs
    have hstarts := Parameters.starts_format hne
    cases comment with
    | none =>
      have htail : tail (v :: vs) none = ' ' :: Parameters.format (v :: vs) := by simp [tail]
      rw [htail, Text.trimStart_space, hstarts.trimStart_eq, Parameters.splitComment_format]
    | some k =>
      obtain ⟨rest, rfl⟩ := hc k rfl
      have htail : tail (v :: vs) (some ('#' :: rest)) =
          ' ' :: (Parameters.format (v :: vs) ++ ' ' :: '#' :: rest) := by simp [tail]
      rw [htail, Text.trimStart_space, (hstarts.append _).trimStart_eq,
        Parameters.splitComment_format_append hne]

theorem Reads.afterDefinition_tail {values : List Text} {comment : Option Text}
    (h : l.Reads indent (tail values comment)) (hd : l.isDefinition = true)
    (hc : ∀ k, comment = some k → ∃ rest, k = '#' :: rest) :
    l.afterDefinition = .ok (Parameters.format values, comment) := by
  rw [h.afterDefinition_eq hd, splitComment_trimStart_tail values hc]

theorem Reads.parameters_eq {values : List Text} {comment : Option Text}
    (h : l.Reads indent (tail values comment)) (hd : l.isDefinition = true)
    (hc : ∀ k, comment = some k → ∃ rest, k = '#' :: rest) : l.parameters = .ok values := by
  rw [parameters, h.afterDefinition_tail hd hc, Checked.ok_bind]
  exact congrArg Except.ok (Parameters.parse_format values)

theorem setParameters_of_not_isDefinition (hd : l.isDefinition = false) (values : List Text) :
    l.setParameters values = .ok l := by
  rw [setParameters, hd]
  rfl

theorem Shaped.exists_setParameters (h : l.Shaped) (values : List Text) :
    ∃ l', l.setParameters values = .ok l' ∧ l'.Shaped ∧ l'.definition = l.definition := by
  cases hd : l.isDefinition with
  | false => exact ⟨l, setParameters_of_not_isDefinition hd values, h, rfl⟩
  | true =>
    obtain ⟨indent, rest, hr⟩ := h hd
    exact ⟨_, hr.setParameters_eq hd values, fun _ => ⟨_, _, hr.withParameters _ _⟩, rfl⟩

theorem Shaped.indent_setParameters (h : l.Shaped) {values : List Text} {l' : Line}
    (hset : l.setParameters values = .ok l') : l'.indent = l.indent := by
  cases hd : l.isDefinition with
  | false =>
    rw [setParameters_of_not_isDefinition hd, Except.ok.injEq] at hset
    rw [hset]
  | true =>
    obtain ⟨indent, rest, hr⟩ := h hd
    rw [hr.setParameters_eq hd, Except.ok.injEq] at hset
    rw [← hset, (hr.withParameters _ _).indent_eq, hr.indent_eq]

theorem Shaped.exists_parameters (h : l.Shaped) : ∃ values, l.parameters = .ok values := by
  cases hd : l.isDefinition with
  | false => exact ⟨Parameters.parse [], by rw [parameters, afterDefinition, hd]; rfl⟩
  | true =>
    obtain ⟨indent, rest, hr⟩ := h hd
    exact ⟨_, by rw [parameters, hr.afterDefinition_eq hd]; rfl⟩

theorem parse_of_word {name : Text} (hi : indent.IsIndentation) (hn : name.IsWord)
    (hr : ∀ c, rest.head? = some c → Text.isIndent c = true) (inherited : Nat) :
    parse inherited (indent ++ name ++ rest) =
      ⟨indent ++ name ++ rest, indent.length, name⟩ := by
  have hhead := hn.head_not_isIndent rest
  have hdrop : (indent ++ name ++ rest).dropWhile Text.isIndent = name ++ rest := by
    rw [List.append_assoc, Text.dropWhile_isIndent hi hhead]
  have htake : (indent ++ name ++ rest).takeWhile Text.isIndent = indent := by
    rw [List.append_assoc, Text.takeWhile_isIndent hi hhead]
  have hword : (name ++ rest).takeWhile (fun c => !Text.isIndent c) = name := by
    rw [List.takeWhile_append_of_pos (by simpa using hn.not_isIndent)]
    cases rest with
    | nil => simp
    | cons c rest => simp [hr c rfl]
  rw [parse, hdrop, htake]
  split
  · next h =>
    simp only [List.append_eq_nil_iff] at h
    exact absurd h.1 hn.ne_nil
  · next h =>
    cases name with
    | nil => exact absurd rfl hn.ne_nil
    | cons c name =>
      simp only [List.cons_append, List.cons.injEq] at h
      exact absurd (by simp [h.1]) hn.head_ne
  · rw [hword]

private theorem dropWhile_eq_cons {p : Char → Bool} {t u : Text} {c : Char}
    (h : t.dropWhile p = c :: u) : p c = false := by
  have hhead := List.head?_dropWhile_not p t
  simpa [h] using hhead

theorem parse_cases (t : Text) :
    (∀ inherited, parse inherited t = ⟨t, inherited, []⟩) ∨
      ∃ indent name rest, t = indent ++ name ++ rest ∧ indent.IsIndentation ∧ name.IsWord ∧
        ∀ c, rest.head? = some c → Text.isIndent c = true := by
  have hsplit := List.takeWhile_append_dropWhile (p := Text.isIndent) (l := t)
  cases hbody : t.dropWhile Text.isIndent with
  | nil =>
    left
    intro inherited
    rw [parse, hbody]
  | cons c body =>
    by_cases hc : c = '#'
    · left
      intro inherited
      simp only [parse, hbody, hc]
    · right
      have hword :=
        List.takeWhile_append_dropWhile (p := fun c => !Text.isIndent c) (l := c :: body)
      have hfirst := dropWhile_eq_cons hbody
      refine ⟨t.takeWhile Text.isIndent, (c :: body).takeWhile fun c => !Text.isIndent c,
        (c :: body).dropWhile fun c => !Text.isIndent c, ?_, Text.isIndentation_takeWhile t,
        ⟨?_, ?_, ?_⟩, ?_⟩
      · rw [List.append_assoc, hword, ← hbody, hsplit]
      · simp [hfirst]
      · intro a ha
        simpa using List.all_eq_true.mp List.all_takeWhile a ha
      · simp [hfirst, hc]
      · intro a ha
        cases hrest : (c :: body).dropWhile fun c => !Text.isIndent c with
        | nil => simp [hrest] at ha
        | cons b rest =>
          simp only [hrest, List.head?_cons, Option.some.injEq] at ha
          simpa [← ha] using dropWhile_eq_cons hrest

@[simp] theorem parse_text (inherited : Nat) (t : Text) : (parse inherited t).text = t := by
  rw [parse]
  split <;> rfl

theorem shaped_parse (inherited : Nat) (t : Text) : (parse inherited t).Shaped := by
  intro hd
  rcases parse_cases t with h | ⟨indent, name, rest, rfl, hi, hn, hr⟩
  · simp [h, isDefinition] at hd
  · exact ⟨indent, rest, by simp only [parse_of_word hi hn hr], hi,
      by simp only [parse_of_word hi hn hr]⟩

@[simp] theorem make_definition (indent name : Text) (values : List Text) :
    (make indent name values).definition = name := by
  rw [make]
  split <;> rfl

theorem make_level (indent name : Text) (values : List Text) :
    (make indent name values).level = Text.byteLength indent := by
  rw [make]
  split <;> rfl

theorem reads_make (hi : indent.IsIndentation) {name : Text} (hn : name ≠ []) (values : List Text) :
    (make indent name values).Reads indent (tail values none) := by
  have hbare : Reads ⟨indent ++ name, Text.byteLength indent, name⟩ indent [] :=
    ⟨by simp, hi, hi.byteLength_eq⟩
  have hd : isDefinition ⟨indent ++ name, Text.byteLength indent, name⟩ = true := by
    simpa [isDefinition] using hn
  simp only [make, if_pos hd]
  exact hbare.withParameters values none

theorem shaped_make (hi : indent.IsIndentation) (name : Text) (values : List Text) :
    (make indent name values).Shaped := by
  intro hd
  refine ⟨indent, _, reads_make hi ?_ values⟩
  simpa [isDefinition] using hd

theorem isDefinition_make {indent name : Text} (hn : name ≠ []) (values : List Text) :
    (make indent name values).isDefinition = true := by
  rw [isDefinition, make_definition]
  simpa using hn

theorem parameters_make (hi : indent.IsIndentation) {name : Text} (hn : name ≠ [])
    (values : List Text) : (make indent name values).parameters = .ok values := by
  exact (reads_make hi hn values).parameters_eq (isDefinition_make hn values) (by simp)

theorem head_of_splitComment {k : Text}
    (h : (Parameters.splitComment (Text.trimStart rest)).2 = some k) :
    ∃ later, k = '#' :: later := by
  rw [Parameters.splitComment_snd] at h
  exact Parameters.head_of_cutComment h

theorem Shaped.parameters_setParameters (h : l.Shaped) (hd : l.isDefinition = true)
    {values : List Text} {l' : Line} (hset : l.setParameters values = .ok l') :
    l'.parameters = .ok values := by
  obtain ⟨indent, rest, hr⟩ := h hd
  rw [hr.setParameters_eq hd, Except.ok.injEq] at hset
  subst hset
  exact (hr.withParameters _ _).parameters_eq hd fun k hk => head_of_splitComment hk

private theorem Reads.withParameters_withParameters (h : l.Reads indent rest)
    (values later : List Text) (comment comment' : Option Text) :
    (l.withParameters values comment).withParameters later comment' =
      l.withParameters later comment' := by
  have hindent : (l.withParameters values comment).indent = l.indent := by
    rw [(h.withParameters values comment).indent_eq, h.indent_eq]
  simp only [Line.withParameters] at hindent ⊢
  rw [hindent]

theorem Shaped.setParameters_setParameters (h : l.Shaped) {values : List Text} {l' : Line}
    (hset : l.setParameters values = .ok l') (later : List Text) :
    l'.setParameters later = l.setParameters later := by
  by_cases hd : l.isDefinition = true
  · obtain ⟨indent, rest, hr⟩ := h hd
    rw [hr.setParameters_eq hd, Except.ok.injEq] at hset
    subst hset
    rw [(hr.withParameters values _).setParameters_eq hd,
      splitComment_trimStart_tail values fun k hk => head_of_splitComment hk,
      hr.setParameters_eq hd, hr.withParameters_withParameters]
  · have hnone : l.isDefinition = false := by simpa using hd
    rw [setParameters_of_not_isDefinition hnone, Except.ok.injEq] at hset
    rw [hset]

theorem setParameters_make (hi : indent.IsIndentation) {name : Text} (hn : name ≠ [])
    (values later : List Text) :
    (make indent name values).setParameters later = .ok (make indent name later) := by
  have hbare : Reads ⟨indent ++ name, Text.byteLength indent, name⟩ indent [] :=
    ⟨by simp, hi, hi.byteLength_eq⟩
  have hd : isDefinition ⟨indent ++ name, Text.byteLength indent, name⟩ = true := by
    simpa [isDefinition] using hn
  have hmake : ∀ vs, make indent name vs =
      withParameters ⟨indent ++ name, Text.byteLength indent, name⟩ vs none :=
    fun vs => if_pos hd
  rw [hmake, hmake, (hbare.withParameters values none).setParameters_eq hd,
    splitComment_trimStart_tail values (by simp), hbare.withParameters_withParameters]

section Characters

variable {c : Char}

private theorem mem_tail {values : List Text} {comment : Option Text}
    (h : c ∈ tail values comment) :
    c = ' ' ∨ isQuote c = true ∨ (∃ v ∈ values, c ∈ v) ∨ ∃ k, comment = some k ∧ c ∈ k := by
  rcases List.mem_append.mp h with h | h
  · split at h
    · simp at h
    · rcases List.mem_cons.mp h with h | h
      · exact .inl h
      · rcases Parameters.mem_format h with h | h | h
        · exact .inl h
        · exact .inr (.inl h)
        · exact .inr (.inr (.inl h))
  · cases comment with
    | none => simp at h
    | some k =>
      rcases List.mem_cons.mp h with h | h
      · exact .inl h
      · exact .inr (.inr (.inr ⟨k, rfl, h⟩))

theorem not_mem_make (hi : indent.IsIndentation) {name : Text} {values : List Text}
    (hindent : Text.isIndent c = false) (hquote : isQuote c = false) (hname : c ∉ name)
    (hvalues : ∀ v ∈ values, c ∉ v) : c ∉ (make indent name values).text := by
  have hblank : c ∉ indent := fun hc => by simp [hi c hc] at hindent
  by_cases hn : name = []
  · subst hn
    simpa [make, isDefinition] using hblank
  · rw [(reads_make hi hn values).text_eq, make_definition]
    simp only [List.mem_append, not_or]
    refine ⟨⟨hblank, hname⟩, fun h => ?_⟩
    rcases mem_tail h with rfl | h | ⟨v, hv, h⟩ | ⟨k, hk, -⟩
    · cases hindent
    · simp [h] at hquote
    · exact hvalues v hv h
    · cases hk

theorem Shaped.not_mem_setParameters (hs : l.Shaped) {values : List Text} {l' : Line}
    (hset : l.setParameters values = .ok l') (hindent : Text.isIndent c = false)
    (hquote : isQuote c = false) (hl : c ∉ l.text) (hvalues : ∀ v ∈ values, c ∉ v) :
    c ∉ l'.text := by
  cases hd : l.isDefinition with
  | false =>
    rw [setParameters_of_not_isDefinition hd, Except.ok.injEq] at hset
    exact hset ▸ hl
  | true =>
    obtain ⟨indent, rest, hr⟩ := hs hd
    rw [hr.setParameters_eq hd, Except.ok.injEq] at hset
    subst hset
    rw [hr.text_eq, List.mem_append, not_or] at hl
    rw [(hr.withParameters _ _).text_eq, List.mem_append, not_or]
    refine ⟨hl.1, fun h => ?_⟩
    rcases mem_tail h with rfl | h | ⟨v, hv, h⟩ | ⟨k, hk, h⟩
    · cases hindent
    · simp [h] at hquote
    · exact hvalues v hv h
    · exact hl.2 ((List.dropWhile_suffix _).subset ((Parameters.suffix_of_comment hk).subset h))

end Characters

end Line

theorem shaped_of_mem_readLines {inherited : Nat} {ts : List Text} {l : Line}
    (h : l ∈ readLines inherited ts) : l.Shaped := by
  induction ts generalizing inherited with
  | nil => simp [readLines] at h
  | cons t ts ih =>
    rcases List.mem_cons.mp h with rfl | h
    · exact Line.shaped_parse inherited t
    · exact ih h

end SpriteConfig

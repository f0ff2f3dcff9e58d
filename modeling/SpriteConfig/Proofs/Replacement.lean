import SpriteConfig.Proofs.LineBreak
/-!
# Replacing line breaks

Line breaks are replaced where they occur, from the left and without overlaps. Splitting a text and
joining its lines again with other line breaks comes to the same.
-/
namespace SpriteConfig

namespace Text

/-- The text with `new` in place of `old`. Its first `n` characters belong to an occurrence that has
been replaced. -/
def replaceFrom (old new : Text) : Nat → Text → Text
  | _, [] => []
  | n + 1, _ :: t => replaceFrom old new n t
  | 0, c :: t =>
    if old <+: c :: t then new ++ replaceFrom old new (old.length - 1) t
    else c :: replaceFrom old new 0 t

/-- The text with `new` in place of each occurrence of `old`, from the left. -/
def replace (old new t : Text) : Text := replaceFrom old new 0 t

variable {old new : Text}

theorem replaceFrom_length_append (s t : Text) :
    replaceFrom old new s.length (s ++ t) = replace old new t := by
  induction s with
  | nil => rfl
  | cons c s ih => exact ih

theorem replace_append (hne : old ≠ []) (t : Text) :
    replace old new (old ++ t) = new ++ replace old new t := by
  cases old with
  | nil => exact absurd rfl hne
  | cons c s =>
    have hpre : c :: s <+: c :: (s ++ t) := List.prefix_append (c :: s) t
    have hlength : (c :: s).length - 1 = s.length := rfl
    rw [replace, List.cons_append, replaceFrom, if_pos hpre, hlength, replaceFrom_length_append]

theorem replace_cons {c : Char} {t : Text} (h : ¬ old <+: c :: t) :
    replace old new (c :: t) = c :: replace old new t := by
  rw [replace, replaceFrom, if_neg h]
  rfl

end Text

namespace LineBreak

theorem text_ne_nil (e : LineBreak) : e.text ≠ [] := by
  cases e <;> simp [text]

theorem split_text_append (e : LineBreak) (t : Text) : e.split (e.text ++ t) = [] :: e.split t := by
  have hfree : e.Free [] := by
    rw [Free, List.infix_nil]
    exact text_ne_nil e
  have hline := split_line hfree t
  rwa [List.nil_append] at hline

theorem join_split_eq_replace (e e' : LineBreak) (t : Text) :
    Text.join e'.text (e.split t) = Text.replace e.text e'.text t := by
  induction hn : t.length using Nat.strong_induction_on generalizing t with
  | h n ih =>
    by_cases hbreak : e.text <+: t
    · obtain ⟨u, rfl⟩ := hbreak
      have hpos := List.length_pos_iff.mpr (text_ne_nil e)
      have hu := ih u.length (by rw [← hn, List.length_append]; omega) u rfl
      rw [split_text_append, Text.join_cons _ _ (split_ne_nil e u), hu,
        Text.replace_append (text_ne_nil e), List.nil_append]
    · cases t with
      | nil => cases e <;> rfl
      | cons c t =>
        have ht := ih t.length (by rw [← hn]; simp) t rfl
        rw [split_cons hbreak, Text.join_modifyHead _ _ (split_ne_nil e t), ht,
          Text.replace_cons hbreak]

theorem normalize_eq_replace (e : LineBreak) (t : Text) :
    e.normalize t = Text.replace e.text lf.text t := join_split_eq_replace e lf t

theorem restore_eq_replace (e : LineBreak) (t : Text) :
    e.restore t = Text.replace lf.text e.text t := join_split_eq_replace lf e t

theorem split_restore_iff {e : LineBreak} {t : Text} :
    e.split (e.restore t) = lf.split t ↔ (e = cr → '\r' ∉ t) := by
  constructor
  · rintro h rfl hmem
    rw [restore, split_join_iff] at h
    rw [← join_split lf t] at hmem
    obtain ⟨l, hl, hmem⟩ := exists_mem_split_of_mem_normalize (by decide) hmem
    exact free_cr.mp (h.2 l hl) hmem
  · exact split_restore_of_cr

theorem not_mem_normalize_cr (t : Text) : '\r' ∉ cr.normalize t := by
  intro hmem
  obtain ⟨l, hl, hmem⟩ := exists_mem_split_of_mem_normalize (by decide) hmem
  exact free_cr.mp (free_of_mem_split hl) hmem

theorem normalize_restore_iff {e : LineBreak} {t : Text} :
    e.normalize (e.restore t) = t ↔ (e = cr → '\r' ∉ t) := by
  constructor
  · rintro h rfl
    rw [← h]
    exact not_mem_normalize_cr _
  · intro hcr
    rw [normalize, split_restore_iff.mpr hcr]
    exact join_split lf t

theorem restore_eq_self {e : LineBreak} {t : Text} (hlf : '\n' ∉ t) : e.restore t = t := by
  rw [restore, split_free (free_lf.mpr hlf)]
  rfl

theorem detect_restore {e : LineBreak} {t : Text} (hcr : '\r' ∉ t) (hlf : '\n' ∈ t) :
    detect (e.restore t) = e := by
  have hplain := split_lf_plain hcr
  have hjoin := join_split lf t
  rw [restore]
  cases hs : lf.split t with
  | nil => exact absurd hs (split_ne_nil lf t)
  | cons l ls =>
    cases ls with
    | nil =>
      rw [hs] at hplain hjoin
      obtain rfl : l = t := hjoin
      exact absurd hlf (hplain l List.mem_cons_self).1
    | cons m ls => exact detect_join e (hs ▸ hplain)

/-- The line breaks that a text was given are told exactly if there are any, or if they are the ones
that are told of a text without any. -/
theorem detect_restore_iff (e : LineBreak) {t : Text} (hcr : '\r' ∉ t) :
    detect (e.restore t) = e ↔ e = lf ∨ '\n' ∈ t := by
  by_cases hlf : '\n' ∈ t
  · simp [detect_restore hcr hlf, hlf]
  · rw [restore_eq_self hlf, detect_free hlf hcr]
    simp [hlf, eq_comm]

/-- Texts that are given other line breaks in place of their line feeds come back. The lines and the
text are found again exactly if there are no single returns that would come to separate lines; and
the line breaks are told from a text without any returns exactly if there are any, and give the text
back in every case. -/
theorem restore_round_trips (e : LineBreak) (t : Text) :
    e.restore t = Text.replace lf.text e.text t ∧
      (∀ u, e.normalize u = Text.replace e.text lf.text u) ∧
      (e.split (e.restore t) = lf.split t ↔ (e = cr → '\r' ∉ t)) ∧
      (e.normalize (e.restore t) = t ↔ (e = cr → '\r' ∉ t)) ∧
      ('\r' ∉ t → (detect (e.restore t)).normalize (e.restore t) = t ∧
        (detect (e.restore t) = e ↔ e = lf ∨ '\n' ∈ t)) :=
  ⟨restore_eq_replace e t, normalize_eq_replace e, split_restore_iff, normalize_restore_iff,
    fun hcr => ⟨normalize_detect_restore e hcr, detect_restore_iff e hcr⟩⟩

/-- Empty lines next to each other, with single returns for line breaks, and a return of the text's
own before a pair. -/
theorem restore_round_trips_adjacent :
    let t := "\n\na\n".toList
    let u := "a\r\nb".toList
    '\r' ∉ t ∧ cr.restore t = "\r\ra\r".toList ∧ cr.split (cr.restore t) = lf.split t ∧
      cr.normalize (cr.restore t) = t ∧
      (detect (cr.restore t)).normalize (cr.restore t) = t ∧ detect (cr.restore t) = cr ∧
      crlf.restore u = "a\r\r\nb".toList ∧ crlf.split (crlf.restore u) = lf.split u ∧
      crlf.normalize (crlf.restore u) = u ∧ cr.normalize (cr.restore u) ≠ u := by
  intro t u
  have hcr : '\r' ∉ t := by decide
  obtain ⟨-, -, hsplit, hnormalize, hdetect⟩ := restore_round_trips cr t
  obtain ⟨-, -, hsplit', hnormalize', -⟩ := restore_round_trips crlf u
  have hdetect := hdetect hcr
  exact ⟨hcr, by decide, hsplit.mpr fun _ => hcr, hnormalize.mpr fun _ => hcr, hdetect.1,
    hdetect.2.mpr (.inr (by decide)), by decide, hsplit'.mpr nofun, hnormalize'.mpr nofun,
    by decide⟩

end LineBreak
end SpriteConfig

import SpriteConfig.LineBreak
import Mathlib.Data.List.Infix
/-!
# Lines and their line breaks

Splitting undoes joining as long as no line holds the line break itself, and the lines of a text
never do. A line may still hold one half of a pair.
-/
namespace SpriteConfig

theorem Text.mem_join {sep : Text} {ps : List Text} {c : Char} (h : c ∈ join sep ps) :
    c ∈ sep ∨ ∃ p ∈ ps, c ∈ p := by
  induction ps with
  | nil => simp [join] at h
  | cons p ps ih =>
    cases ps with
    | nil => exact .inr ⟨p, List.mem_cons_self, h⟩
    | cons q qs =>
      rw [join_cons _ _ (List.cons_ne_nil q qs), List.mem_append, List.mem_append] at h
      rcases h with (h | h) | h
      · exact .inr ⟨p, List.mem_cons_self, h⟩
      · exact .inl h
      · rcases ih h with h | ⟨r, hr, hc⟩
        · exact .inl h
        · exact .inr ⟨r, List.mem_cons_of_mem _ hr, hc⟩

theorem Text.mem_join_of_mem {sep p : Text} {ps : List Text} {c : Char} (hp : p ∈ ps)
    (hc : c ∈ p) : c ∈ join sep ps := by
  induction ps with
  | nil => simp at hp
  | cons q ps ih =>
    cases ps with
    | nil => simpa [join, ← List.mem_singleton.mp hp] using hc
    | cons r rs =>
      rw [join_cons _ _ (List.cons_ne_nil r rs), List.mem_append, List.mem_append]
      rcases List.mem_cons.mp hp with rfl | hp
      · exact .inl (.inl hc)
      · exact .inr (ih hp)

theorem Text.split_append_cons (c : Char) (s t : Text) :
    split c (s ++ c :: t) = split c s ++ split c t := by
  induction s with
  | nil => simp [split]
  | cons a s ih =>
    rw [List.cons_append, split, split, ih]
    split
    · rfl
    · cases hs : split c s with
      | nil => exact absurd hs (split_ne_nil c s)
      | cons p ps => rfl

namespace LineBreak

def Free (e : LineBreak) (l : Text) : Prop := ¬ e.text <:+: l

instance (e : LineBreak) (l : Text) : Decidable (e.Free l) := inferInstanceAs (Decidable (¬ _))

def ended (e : LineBreak) (ls : List Text) : Text := ls.flatMap (· ++ e.text)

@[simp] theorem ended_nil (e : LineBreak) : e.ended [] = [] := rfl

@[simp] theorem ended_cons (e : LineBreak) (l : Text) (ls : List Text) :
    e.ended (l :: ls) = l ++ e.text ++ e.ended ls := by
  simp [ended]

theorem ended_append (e : LineBreak) (ls ms : List Text) :
    e.ended (ls ++ ms) = e.ended ls ++ e.ended ms := by
  simp [ended]

theorem join_append_ended (e : LineBreak) (ls : List Text) {ms : List Text} (h : ms ≠ []) :
    Text.join e.text (ls ++ ms) = e.ended ls ++ Text.join e.text ms := by
  induction ls with
  | nil => simp
  | cons l ls ih =>
    have hne : ls ++ ms ≠ [] := by simp [h]
    rw [List.cons_append, Text.join_cons _ _ hne, ih, ended_cons]
    simp only [List.append_assoc]

theorem join_append (e : LineBreak) {ls ms : List Text} (hl : ls ≠ []) (hm : ms ≠ []) :
    Text.join e.text (ls ++ ms) = Text.join e.text ls ++ e.text ++ Text.join e.text ms := by
  induction ls with
  | nil => exact absurd rfl hl
  | cons l ls ih =>
    have hne : ls ++ ms ≠ [] := by simp [hm]
    rw [List.cons_append, Text.join_cons _ _ hne]
    cases ls with
    | nil => rfl
    | cons k ks =>
      rw [ih (List.cons_ne_nil k ks), Text.join_cons _ _ (List.cons_ne_nil k ks)]
      simp only [List.append_assoc]

theorem join_append_text (e : LineBreak) {ls : List Text} (h : ls ≠ []) :
    Text.join e.text ls ++ e.text = e.ended ls := by
  have hnil : ([[]] : List Text) ≠ [] := List.cons_ne_nil [] []
  have hjoin := join_append e h hnil
  rw [join_append_ended e ls hnil] at hjoin
  simpa [Text.join] using hjoin.symm

theorem free_lf {l : Text} : lf.Free l ↔ '\n' ∉ l := by
  rw [Free, text, List.singleton_infix_iff]

theorem free_cr {l : Text} : cr.Free l ↔ '\r' ∉ l := by
  rw [Free, text, List.singleton_infix_iff]

theorem free_of_no_lf {e : LineBreak} {l : Text} (hlf : '\n' ∉ l) (hcr : e = cr → '\r' ∉ l) :
    e.Free l := by
  cases e with
  | lf => exact free_lf.mpr hlf
  | cr => exact free_cr.mpr (hcr rfl)
  | crlf =>
    intro hpair
    exact hlf (hpair.subset (by simp [text]))

private theorem charSplit_free {c : Char} {l : Text} (h : c ∉ l) : Text.split c l = [l] := by
  induction l with
  | nil => rfl
  | cons a l ih =>
    simp only [List.mem_cons, not_or] at h
    rw [Text.split, if_neg (Ne.symm h.1), ih h.2]
    rfl

private theorem charSplit_line {c : Char} {l : Text} (h : c ∉ l) (t : Text) :
    Text.split c (l ++ [c] ++ t) = l :: Text.split c t := by
  rw [List.append_assoc, List.singleton_append, Text.split_append_cons, charSplit_free h]
  rfl

private theorem splitPairs_cons {c : Char} {t : Text} (h : ¬ crlf.text <+: c :: t) :
    splitPairs (c :: t) = (splitPairs t).modifyHead (c :: ·) := by
  rw [splitPairs]
  rintro t' rfl rfl
  exact h ⟨t', rfl⟩

private theorem charSplit_cons {c a : Char} {t : Text} (h : ¬ [c] <+: a :: t) :
    Text.split c (a :: t) = (Text.split c t).modifyHead (a :: ·) := by
  have ha : a ≠ c := by
    rintro rfl
    exact h ⟨t, rfl⟩
  rw [Text.split, if_neg ha]

theorem split_cons {e : LineBreak} {c : Char} {t : Text} (h : ¬ e.text <+: c :: t) :
    e.split (c :: t) = (e.split t).modifyHead (c :: ·) := by
  cases e with
  | lf => exact charSplit_cons h
  | crlf => exact splitPairs_cons h
  | cr => exact charSplit_cons h

private theorem splitPairs_line {l : Text} (h : crlf.Free l) (t : Text) :
    splitPairs (l ++ crlf.text ++ t) = l :: splitPairs t := by
  induction l with
  | nil => rfl
  | cons c l ih =>
    have hl : crlf.Free l := fun hpair => h (List.infix_cons hpair)
    have hc : ¬ crlf.text <+: c :: (l ++ crlf.text ++ t) := by
      rintro ⟨u, hu⟩
      cases l with
      | nil => simp [text] at hu
      | cons d l =>
        simp only [text, List.cons_append, List.nil_append, List.cons.injEq] at hu
        obtain ⟨rfl, rfl, -⟩ := hu
        exact h ⟨[], l, rfl⟩
    rw [List.cons_append, List.cons_append, splitPairs_cons hc, ih hl]
    rfl

private theorem splitPairs_free {l : Text} (h : crlf.Free l) : splitPairs l = [l] := by
  induction l with
  | nil => rfl
  | cons c l ih =>
    have hl : crlf.Free l := fun hpair => h (List.infix_cons hpair)
    have hc : ¬ crlf.text <+: c :: l := fun hpair => h hpair.isInfix
    rw [splitPairs_cons hc, ih hl]
    rfl

theorem split_line {e : LineBreak} {l : Text} (h : e.Free l) (t : Text) :
    e.split (l ++ e.text ++ t) = l :: e.split t := by
  cases e with
  | lf => exact charSplit_line (free_lf.mp h) t
  | crlf => exact splitPairs_line h t
  | cr => exact charSplit_line (free_cr.mp h) t

theorem split_free {e : LineBreak} {l : Text} (h : e.Free l) : e.split l = [l] := by
  cases e with
  | lf => exact charSplit_free (free_lf.mp h)
  | crlf => exact splitPairs_free h
  | cr => exact charSplit_free (free_cr.mp h)

theorem split_join (e : LineBreak) {ls : List Text} (hne : ls ≠ []) (h : ∀ l ∈ ls, e.Free l) :
    e.split (Text.join e.text ls) = ls := by
  induction ls with
  | nil => exact absurd rfl hne
  | cons l ls ih =>
    have hl := h l List.mem_cons_self
    cases ls with
    | nil => exact split_free hl
    | cons m ms =>
      have hms := ih (List.cons_ne_nil m ms) fun k hk => h k (List.mem_cons_of_mem _ hk)
      rw [Text.join_cons _ _ (List.cons_ne_nil m ms), split_line hl, hms]

private theorem not_mem_of_mem_charSplit {c : Char} {l t : Text} (h : l ∈ Text.split c t) :
    c ∉ l := by
  induction t generalizing l with
  | nil => simp_all [Text.split]
  | cons a t ih =>
    rw [Text.split] at h
    split at h
    · rcases List.mem_cons.mp h with rfl | h
      · exact List.not_mem_nil
      · exact ih h
    · next ha =>
      cases hs : Text.split c t with
      | nil => exact absurd hs (Text.split_ne_nil c t)
      | cons p ps =>
        rw [hs] at h ih
        rcases List.mem_cons.mp h with rfl | h
        · have hp := ih (l := p) List.mem_cons_self
          simp [Ne.symm ha, hp]
        · exact ih (List.mem_cons_of_mem _ h)

private theorem free_of_mem_splitPairs {l t : Text} (h : l ∈ splitPairs t) : crlf.Free l := by
  fun_induction splitPairs t generalizing l with
  | case1 => simp_all [Free, text]
  | case2 t ih =>
    rcases List.mem_cons.mp h with rfl | h
    · simp [Free, text]
    · exact ih h
  | case3 c t hpair ih =>
    have hjoin : Text.join crlf.text (splitPairs t) = t := join_split crlf t
    cases hs : splitPairs t with
    | nil => exact absurd hs (split_ne_nil crlf t)
    | cons p ps =>
      rw [hs] at h ih hjoin
      rcases List.mem_cons.mp h with rfl | h
      · intro hin
        rcases List.infix_cons_iff.mp hin with ⟨u, hu⟩ | hin
        · simp only [text, List.cons_append, List.nil_append, List.cons.injEq] at hu
          obtain ⟨rfl, rfl⟩ := hu
          cases ps <;> exact hpair _ rfl hjoin.symm
        · exact ih (l := p) List.mem_cons_self hin
      · exact ih (List.mem_cons_of_mem _ h)

theorem free_of_mem_split {e : LineBreak} {l t : Text} (h : l ∈ e.split t) : e.Free l := by
  cases e with
  | lf => exact free_lf.mpr (not_mem_of_mem_charSplit h)
  | crlf => exact free_of_mem_splitPairs h
  | cr => exact free_cr.mpr (not_mem_of_mem_charSplit h)

theorem split_join_iff (e : LineBreak) {ls : List Text} :
    e.split (Text.join e.text ls) = ls ↔ ls ≠ [] ∧ ∀ l ∈ ls, e.Free l := by
  constructor
  · intro h
    constructor
    · rw [← h]
      exact split_ne_nil _ _
    · intro l hl
      rw [← h] at hl
      exact free_of_mem_split hl
  · rintro ⟨hne, hfree⟩
    exact split_join e hne hfree

theorem mem_of_mem_split {e : LineBreak} {l t : Text} (hl : l ∈ e.split t) {c : Char}
    (hc : c ∈ l) : c ∈ t := by
  rw [← join_split e t]
  exact Text.mem_join_of_mem hl hc

theorem exists_mem_split_of_mem_normalize {e : LineBreak} {t : Text} {c : Char} (hc : c ≠ '\n')
    (h : c ∈ e.normalize t) : ∃ l ∈ e.split t, c ∈ l := by
  rcases Text.mem_join h with h | h
  · exact absurd (List.mem_singleton.mp h) hc
  · exact h

private theorem detect_cons {c : Char} (hlf : c ≠ '\n') (hcr : c ≠ '\r') (t : Text) :
    detect (c :: t) = detect t := by
  rw [detect]
  · rintro rfl
    exact hlf rfl
  · rintro t' rfl
    exact absurd rfl hcr
  · rintro rfl
    exact hcr rfl

theorem detect_free {l : Text} (hlf : '\n' ∉ l) (hcr : '\r' ∉ l) : detect l = lf := by
  induction l with
  | nil => rfl
  | cons c l ih =>
    simp only [List.mem_cons, not_or] at hlf hcr
    rw [detect_cons (Ne.symm hlf.1) (Ne.symm hcr.1), ih hlf.2 hcr.2]

private theorem detect_line {e : LineBreak} {l t : Text} (hlf : '\n' ∉ l) (hcr : '\r' ∉ l)
    (ht : e = cr → '\n' ∉ t) : detect (l ++ e.text ++ t) = e := by
  induction l with
  | nil =>
    cases e with
    | lf => rfl
    | crlf => rfl
    | cr =>
      cases t with
      | nil => rfl
      | cons c t =>
        have hc : c ≠ '\n' := fun h => ht rfl (h ▸ List.mem_cons_self)
        simp only [text, List.nil_append, List.singleton_append]
        rw [detect]
        rintro t' ⟨⟩
        exact hc rfl
  | cons c l ih =>
    simp only [List.mem_cons, not_or] at hlf hcr
    rw [List.cons_append, List.cons_append, detect_cons (Ne.symm hlf.1) (Ne.symm hcr.1),
      ih hlf.2 hcr.2]

theorem detect_cases (t : Text) :
    ('\n' ∉ t ∧ '\r' ∉ t) ∨
      ∃ l rest, ('\n' ∉ l ∧ '\r' ∉ l) ∧ t = l ++ (detect t).text ++ rest ∧
        (detect t = cr → ∀ u, rest ≠ '\n' :: u) := by
  fun_induction detect t with
  | case1 => simp
  | case2 t => exact .inr ⟨[], t, by simp, rfl, by simp⟩
  | case3 t => exact .inr ⟨[], t, by simp, rfl, by simp⟩
  | case4 t hpair => exact .inr ⟨[], t, by simp, rfl, fun _ u hu => hpair u hu⟩
  | case5 c t hlf hpair hcr ih =>
    have hc : '\n' ≠ c ∧ '\r' ≠ c := ⟨fun h => hlf h.symm, fun h => hcr h.symm⟩
    rcases ih with hnone | ⟨l, rest, hl, ht, hrest⟩
    · left
      simpa [hc] using hnone
    · refine .inr ⟨c :: l, rest, by simpa [hc] using hl, ?_, hrest⟩
      rw [List.cons_append, List.cons_append, ← ht]

theorem detect_join (e : LineBreak) {l m : Text} {ls : List Text}
    (h : ∀ k ∈ l :: m :: ls, '\n' ∉ k ∧ '\r' ∉ k) :
    detect (Text.join e.text (l :: m :: ls)) = e := by
  obtain ⟨hlf, hcr⟩ := h l List.mem_cons_self
  have hrest : e = cr → '\n' ∉ Text.join e.text (m :: ls) := by
    rintro rfl hmem
    rcases Text.mem_join hmem with hmem | ⟨k, hk, hmem⟩
    · cases List.mem_singleton.mp hmem
    · exact (h k (List.mem_cons_of_mem _ hk)).1 hmem
  rw [Text.join_cons _ _ (List.cons_ne_nil m ls)]
  exact detect_line hlf hcr hrest

theorem split_detect_join (e : LineBreak) {ls : List Text} (hne : ls ≠ [])
    (h : ∀ l ∈ ls, '\n' ∉ l ∧ '\r' ∉ l) :
    (detect (Text.join e.text ls)).split (Text.join e.text ls) = ls := by
  cases ls with
  | nil => exact absurd rfl hne
  | cons l ls =>
    obtain ⟨hlf, hcr⟩ := h l List.mem_cons_self
    cases ls with
    | nil =>
      rw [Text.join, detect_free hlf hcr]
      exact split_free (free_lf.mpr hlf)
    | cons m ls =>
      have hfree : ∀ k ∈ l :: m :: ls, e.Free k :=
        fun k hk => free_of_no_lf (h k hk).1 fun _ => (h k hk).2
      rw [detect_join e h, split_join e hne hfree]

/-- Whether a text has no line breaks but those of one kind. -/
def Uniform (e : LineBreak) (t : Text) : Prop := ∀ l ∈ e.split t, '\n' ∉ l ∧ '\r' ∉ l

/-- The lines of a text are kept when it is given other line breaks. With single returns as line
breaks it must hold none of its own. -/
theorem split_restore_of_cr {e : LineBreak} {t : Text} (hcr : e = cr → '\r' ∉ t) :
    e.split (e.restore t) = lf.split t := by
  rw [restore]
  apply split_join e (split_ne_nil lf t)
  intro l hl
  apply free_of_no_lf (free_lf.mp (free_of_mem_split hl))
  intro he hmem
  exact hcr he (mem_of_mem_split hl hmem)

theorem split_restore {e : LineBreak} (he : e ≠ cr) (t : Text) :
    e.split (e.restore t) = lf.split t :=
  split_restore_of_cr fun hcr => absurd hcr he

theorem split_lf_plain {t : Text} (hcr : '\r' ∉ t) : ∀ l ∈ lf.split t, '\n' ∉ l ∧ '\r' ∉ l := by
  intro l hl
  exact ⟨free_lf.mp (free_of_mem_split hl), fun hmem => hcr (mem_of_mem_split hl hmem)⟩

theorem uniform_restore (e : LineBreak) {t : Text} (hcr : '\r' ∉ t) : e.Uniform (e.restore t) := by
  have hplain := split_lf_plain hcr
  rw [Uniform, restore, split_join e (split_ne_nil lf t)]
  · exact hplain
  · intro l hl
    exact free_of_no_lf (hplain l hl).1 fun _ => (hplain l hl).2

theorem normalize_detect_restore (e : LineBreak) {t : Text} (hcr : '\r' ∉ t) :
    (detect (e.restore t)).normalize (e.restore t) = t := by
  rw [normalize, restore, split_detect_join e (split_ne_nil lf t) (split_lf_plain hcr)]
  exact join_split lf t

theorem Uniform.split_detect {e : LineBreak} {t : Text} (h : e.Uniform t) :
    (detect t).split t = e.split t := by
  have hsplit := split_detect_join e (split_ne_nil e t) h
  rwa [join_split] at hsplit

theorem Uniform.detect {e : LineBreak} {t : Text} (h : e.Uniform t) :
    (LineBreak.detect t).Uniform t := by
  rw [Uniform, h.split_detect]
  exact h

theorem Uniform.not_mem_normalize {e : LineBreak} {t : Text} (h : e.Uniform t) :
    '\r' ∉ (LineBreak.detect t).normalize t := by
  intro hmem
  obtain ⟨l, hl, hmem⟩ := exists_mem_split_of_mem_normalize (by decide) hmem
  rw [h.split_detect] at hl
  exact (h l hl).2 hmem

end LineBreak
end SpriteConfig

import SpriteConfig.Proofs.Answer
import SpriteConfig.Proofs.Session
/-!
# Commits without an edit

A session reads a text with the line breaks that are told from it, while a buffer counts its lines
with the line breaks that it was created with. A commit right after the text was read leaves the
buffer as it is exactly if both see the same lines. Otherwise it rewrites lines that nobody edited.
-/
namespace SpriteConfig

namespace LineBreak

/-- Whether these line breaks separate the lines that are read from a text: they are told from it,
unless it is one line, and no line between them holds a line feed. -/
structure Governs (e : LineBreak) (t : Text) : Prop where
  eq_detect : e = detect t ∨ '\n' ∉ t ∧ '\r' ∉ t
  no_lf : ∀ l ∈ e.split t, '\n' ∉ l

instance (e : LineBreak) (t : Text) : Decidable (e.Governs t) :=
  decidable_of_iff ((e = detect t ∨ '\n' ∉ t ∧ '\r' ∉ t) ∧ ∀ l ∈ e.split t, '\n' ∉ l)
    ⟨fun h => ⟨h.1, h.2⟩, fun h => ⟨h.eq_detect, h.no_lf⟩⟩

variable {e : LineBreak} {t : Text}

private theorem eq_detect_of_split_eq (h : e.split t = lf.split ((detect t).normalize t)) :
    e = detect t ∨ '\n' ∉ t ∧ '\r' ∉ t := by
  rcases detect_cases t with hnone | ⟨l, rest, hl, ht, hrest⟩
  · exact .inr hnone
  left
  have hfree : ∀ e : LineBreak, e.Free l := fun e => free_of_no_lf hl.1 fun _ => hl.2
  generalize detect t = d at h ht hrest ⊢
  have hd : d.split t = l :: d.split rest := by
    rw [ht]
    exact split_line (hfree d) rest
  rw [normalize, hd, Text.join_cons _ _ (split_ne_nil d rest), split_line (hfree lf)] at h
  have hlf : ∀ k ∈ lf.split (Text.join lf.text (d.split rest)), '\n' ∉ k :=
    fun k hk => free_lf.mp (free_of_mem_split hk)
  have hbreak : d.text ++ rest =
      e.text ++ Text.join e.text (lf.split (Text.join lf.text (d.split rest))) := by
    have hjoin := join_split e t
    rw [h, Text.join_cons _ _ (split_ne_nil lf _)] at hjoin
    have hboth := hjoin.trans ht
    rw [List.append_assoc, List.append_assoc] at hboth
    exact (List.append_cancel_left hboth).symm
  cases e with
  | lf =>
    cases d with
    | lf => rfl
    | crlf => simp [text] at hbreak
    | cr => simp [text] at hbreak
  | crlf =>
    cases d with
    | lf => simp [text] at hbreak
    | crlf => rfl
    | cr => exact absurd (List.cons.inj hbreak).2 (hrest rfl _)
  | cr =>
    cases d with
    | lf => simp [text] at hbreak
    | crlf =>
      have hmem : '\n' ∈ '\n' :: rest := List.mem_cons_self
      rw [show '\n' :: rest = _ from (List.cons.inj hbreak).2] at hmem
      rcases Text.mem_join hmem with hmem | ⟨k, hk, hmem⟩
      · cases List.mem_singleton.mp hmem
      · exact absurd hmem (hlf k hk)
    | cr => rfl

/-- A text has the same lines for its buffer as it has for who reads it exactly if the line breaks
of the buffer govern it. -/
theorem split_eq_split_normalize_iff :
    e.split t = lf.split ((detect t).normalize t) ↔ e.Governs t := by
  constructor
  · intro h
    refine ⟨eq_detect_of_split_eq h, fun l hl => ?_⟩
    rw [h] at hl
    exact free_lf.mp (free_of_mem_split hl)
  · rintro ⟨rfl | ⟨hlf, hcr⟩, hlines⟩
    · exact (split_join lf (split_ne_nil _ t) fun l hl => free_lf.mpr (hlines l hl)).symm
    · have hone : ∀ e : LineBreak, e.split t = [t] :=
        fun e => split_free (free_of_no_lf hlf fun _ => hcr)
      rw [detect_free hlf hcr, normalize, hone lf, Text.join, hone lf, hone e]

/-- Reading a text and writing it with these line breaks gives it back exactly if they govern it. -/
theorem restore_normalize_eq_iff : e.restore ((detect t).normalize t) = t ↔ e.Governs t := by
  constructor
  · intro h
    have hpieces : ∀ l ∈ lf.split ((detect t).normalize t), '\n' ∉ l :=
      fun l hl => free_lf.mp (free_of_mem_split hl)
    by_cases he : e = cr
    · subst he
      have hnone : '\n' ∉ t := by
        rw [← h]
        intro hmem
        rcases Text.mem_join hmem with hmem | ⟨l, hl, hmem⟩
        · cases List.mem_singleton.mp hmem
        · exact hpieces l hl hmem
      refine ⟨?_, fun l hl hmem => hnone (mem_of_mem_split hl hmem)⟩
      rcases detect_cases t with hplain | ⟨l, rest, -, ht, -⟩
      · exact .inr hplain
      · left
        cases hd : detect t with
        | cr => rfl
        | lf => exact absurd (by rw [ht, hd]; simp [text]) hnone
        | crlf => exact absurd (by rw [ht, hd]; simp [text]) hnone
    · rw [← split_eq_split_normalize_iff]
      have hjoin : e.split (e.restore ((detect t).normalize t)) =
          lf.split ((detect t).normalize t) :=
        split_join e (split_ne_nil lf _) fun l hl =>
          free_of_no_lf (hpieces l hl) fun h => absurd h he
      rwa [h] at hjoin
  · intro h
    rw [restore, ← split_eq_split_normalize_iff.mpr h, join_split]

end LineBreak

namespace Session

theorem source_ofHost {β : Type} [Host β] (host : β) (options : Options) :
    (ofHost host options).document.source =
      (LineBreak.detect (Host.text host)).normalize (Host.text host) :=
  Document.source_parse _ _

theorem edit_of_performEach {β : Type} [Host β] {s : Session} {host : β} {es : List Edit}
    {d : Document} {answers : List Bool} (h : s.document.performEach es = .ok (d, answers))
    (hno : ∀ answer ∈ answers, answer = false) :
    s.edit host (·.performEach es) = (·, answers) <$> s.commit host := by
  obtain rfl := Document.eq_of_performEach h hno
  rw [edit, h, Checked.ok_bind]
  rfl

/-- A session that was just attached to a buffer leaves it as it is when it commits, or when it
makes edits that all answer no, exactly if the line breaks of the buffer govern its text. -/
theorem commit_ofHost_unchanged_iff (b : Buffer) (options : Options) :
    ∃ s b' patch, (ofHost b options).commit b = .ok ⟨s, b', .ok patch⟩ ∧
      (b.lineBreak.Governs b.text → b' = b ∧ patch = none) ∧
      (¬ b.lineBreak.Governs b.text → b'.text ≠ b.text ∧ ∃ p, patch = some p) ∧
      ∀ es d answers, (ofHost b options).document.performEach es = .ok (d, answers) →
        (∀ answer ∈ answers, answer = false) →
        (ofHost b options).edit b (·.performEach es) = .ok (⟨s, b', .ok patch⟩, answers) := by
  have hsource : (ofHost b options).document.source =
      (LineBreak.detect b.text).normalize b.text := source_ofHost b options
  obtain ⟨s, b', patch, hcommit, hyes, hno⟩ : ∃ s b' patch,
      (ofHost b options).commit b = .ok ⟨s, b', .ok patch⟩ ∧
        (b.lineBreak.Governs b.text → b' = b ∧ patch = none) ∧
        (¬ b.lineBreak.Governs b.text → b'.text ≠ b.text ∧ ∃ p, patch = some p) := by
    by_cases h : b.lineBreak.Governs b.text
    · have hlines : (Host.lineBreak b).split (Host.text b) =
          LineBreak.lf.split (ofHost b options).document.source := by
        rw [hsource]
        exact LineBreak.split_eq_split_normalize_iff.mpr h
      exact ⟨_, b, none, commit_of_eq hlines, fun _ => ⟨rfl, rfl⟩, fun hn => absurd h hn⟩
    · have hlines := mt LineBreak.split_eq_split_normalize_iff.mp h
      rw [← hsource] at hlines
      obtain ⟨b', p, hcommit, htext⟩ := exists_commit_of_ne hlines
      refine ⟨_, b', some p, hcommit, fun hy => absurd hy h, fun _ => ⟨?_, p, rfl⟩⟩
      rw [htext, hsource]
      exact mt LineBreak.restore_normalize_eq_iff.mp h
  refine ⟨s, b', patch, hcommit, hyes, hno, fun es d answers hes hanswers => ?_⟩
  rw [edit_of_performEach hes hanswers, hcommit]
  rfl

/-- A file with pairs as line breaks, after an edit that was undone and done again. -/
theorem commit_ofHost_unchanged_iff_crlf :
    let as : List Buffer.Action := [.replace 5 5 " é\r\n".toList, .undo, .redo, .setCaret 3]
    let es : List Edit := [.deleteProperty 1 "grid".toList, .deleteSubject 9, .setLayout 1 .sprite]
    ∃ b answers, (Buffer.ofText "input\r\n  sprite".toList).actAll as = .ok (b, answers) ∧
      b.lineBreak.Governs b.text ∧
      ∃ s, (ofHost b {}).commit b = .ok ⟨s, b, .ok none⟩ ∧
        (ofHost b {}).edit b (·.performEach es) = .ok (⟨s, b, .ok none⟩, [false, false, false]) := by
  intro as es
  let b : Buffer :=
    { text := "input é\r\n\r\n  sprite".toList
      lineBreak := .crlf
      past := [⟨5, [], " é\r\n".toList, 0⟩]
      version := 3
      caret := 3 }
  have hgoverns : b.lineBreak.Governs b.text := by decide
  obtain ⟨s, b', patch, hcommit, hyes, -, hedit⟩ := commit_ofHost_unchanged_iff b {}
  obtain ⟨rfl, rfl⟩ := hyes hgoverns
  exact ⟨b, _, rfl, hgoverns, s, hcommit, hedit es _ _ rfl (by decide)⟩

/-- A line feed among pairs is a line break for who reads the text but not for the buffer: the first
commit makes a pair of it, although nothing was edited. -/
theorem commit_ofHost_lone_line_feed :
    let b := Buffer.ofText "input\r\n  sprite\n  sprite".toList
    ∃ s b' p, (ofHost b {}).commit b = .ok ⟨s, b', .ok (some p)⟩ ∧
      b'.text = "input\r\n  sprite\r\n  sprite".toList ∧ b'.text ≠ b.text ∧ b'.version = 1 ∧
      b'.past.length = 1 :=
  ⟨_, _, _, rfl, by decide, by decide, rfl, rfl⟩

end Session
end SpriteConfig

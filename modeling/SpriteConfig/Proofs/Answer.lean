import SpriteConfig.Proofs.Change
import SpriteConfig.Proofs.Lookup
/-!
# What edits answer

An edit that answers no has left the document as it is, down to the numbers of its subjects. One
that answers yes has deleted lines, or has written one.
-/
namespace SpriteConfig

theorem Line.eq_of_setParameters {l l' : Line} {values : List Text}
    (h : l.setParameters values = .ok l') (ht : l'.text = l.text) : l' = l := by
  rw [setParameters] at h
  split at h
  · obtain ⟨parts, -, h⟩ := Checked.bind_eq_ok.mp h
    obtain rfl := Except.ok.inj h
    rw [show l.withParameters values parts.2 = { l with text := l.text } from
      congrArg (Line.mk · l.level l.definition) ht]
  · exact (Except.ok.inj h).symm

namespace Document

/-- Performs edits one after the other, and answers for each whether it applied. -/
def performEach (d : Document) : List Edit → Checked (Document × List Bool)
  | [] => .ok (d, [])
  | e :: es => do
    let (d, answer) ← d.perform e
    let (d, answers) ← d.performEach es
    return (d, answer :: answers)

variable {d d' : Document}

theorem inside_of_findDirect? {h : Handle} {name : Text} {found : Option (Line × Nat)}
    (hfound : d.findDirect? h name = .ok found) : h.Inside d := by
  rintro n rfl
  obtain ⟨ls, hls, -⟩ := Checked.bind_eq_ok.mp hfound
  obtain ⟨block, hblock, -⟩ := Checked.bind_eq_ok.mp hls
  obtain ⟨l, hl, -⟩ := Checked.bind_eq_ok.mp hblock
  exact (List.getElem?_eq_some_iff.mp (line_eq_ok_iff.mp hl)).1

theorem getElem?_of_directLine? {s : SubjectId} {name : Text} {l : Line} {n : Nat}
    (hfound : d.directLine? s name = .ok (some (l, n))) :
    d.lines[n]? = some l ∧ l.isDefinition = true ∧ l.definition = name := by
  rw [directLine?] at hfound
  split at hfound
  · cases hfound
  · exact getElem?_of_findDirect? (inside_of_findDirect? hfound) hfound

private theorem eq_of_writeProperty {s : SubjectId} {name : Text} {values : List Text}
    (h : d.writeProperty s name values = .ok (d', false)) : d' = d := by
  rw [writeProperty] at h
  split at h
  · exact (Prod.mk.inj (Except.ok.inj h)).1.symm
  · obtain ⟨found, -, h⟩ := Checked.bind_eq_ok.mp h
    split at h <;>
    · obtain ⟨written, -, h⟩ := Checked.bind_eq_ok.mp h
      cases h

theorem exists_of_deleteLines {start stop : Nat} (h : d.deleteLines start stop = .ok d') :
    stop ≤ d.lines.length ∧ d'.lines = d.lines.take start ++ d.lines.drop stop := by
  rw [deleteLines] at h
  split at h
  · next hle => exact ⟨hle.2, Except.ok.inj h ▸ rfl⟩
  · cases h

theorem deleteProperty_cases {s : SubjectId} {name : Text} {answer : Bool}
    (h : d.deleteProperty s name = .ok (d', answer)) :
    answer = false ∧ d' = d ∨
      answer = true ∧ ∃ l q, d.directLine? s name = .ok (some (l, q)) ∧
        d.deleteLines q (q + 1) = .ok d' := by
  obtain ⟨found, hfound, h⟩ := Checked.bind_eq_ok.mp h
  split at h
  · next l q =>
    obtain ⟨deleted, hdelete, h⟩ := Checked.bind_eq_ok.mp h
    obtain ⟨rfl, rfl⟩ := Prod.mk.inj (Except.ok.inj h)
    exact .inr ⟨rfl, l, q, hfound, hdelete⟩
  · obtain ⟨rfl, rfl⟩ := Prod.mk.inj (Except.ok.inj h)
    exact .inl ⟨rfl, rfl⟩

theorem deleteBlock_cases {s : SubjectId} {answer : Bool}
    (h : d.deleteBlock s = .ok (d', answer)) :
    answer = false ∧ d' = d ∨
      answer = true ∧ ∃ n stop, d.registry.line? s = some n ∧ n + 1 < stop ∧
        d.deleteLines (n + 1) stop = .ok d' := by
  rw [deleteBlock] at h
  split at h
  · obtain ⟨rfl, rfl⟩ := Prod.mk.inj (Except.ok.inj h)
    exact .inl ⟨rfl, rfl⟩
  · obtain ⟨rfl, rfl⟩ := Prod.mk.inj (Except.ok.inj h)
    exact .inl ⟨rfl, rfl⟩
  · next n hs =>
    obtain ⟨⟨start, block⟩, hblock, h⟩ := Checked.bind_eq_ok.mp h
    obtain ⟨own, -, hblock⟩ := Checked.bind_eq_ok.mp hblock
    obtain ⟨rfl, -⟩ := Prod.mk.inj (Except.ok.inj hblock)
    dsimp only at h
    split at h
    · obtain ⟨rfl, rfl⟩ := Prod.mk.inj (Except.ok.inj h)
      exact .inl ⟨rfl, rfl⟩
    · next hne =>
      obtain ⟨cleared, hdelete, h⟩ := Checked.bind_eq_ok.mp h
      obtain ⟨rfl, rfl⟩ := Prod.mk.inj (Except.ok.inj h)
      refine .inr ⟨rfl, n, _, by rw [Registry.line?, hs]; rfl, Nat.lt_of_le_of_ne ?_ hne, hdelete⟩
      rw [withBlankLine]
      split <;> omega

theorem deleteSubject_cases {s : SubjectId} {answer : Bool}
    (h : d.deleteSubject s = .ok (d', answer)) :
    answer = false ∧ d' = d ∨
      answer = true ∧ ∃ n cleared isCleared, d.registry.line? s = some n ∧
        d.deleteBlock s = .ok (cleared, isCleared) ∧ cleared.deleteLines n (n + 1) = .ok d' := by
  rw [deleteSubject] at h
  split at h
  · obtain ⟨rfl, rfl⟩ := Prod.mk.inj (Except.ok.inj h)
    exact .inl ⟨rfl, rfl⟩
  · next n hn =>
    obtain ⟨⟨cleared, isCleared⟩, hclear, h⟩ := Checked.bind_eq_ok.mp h
    obtain ⟨deleted, hdelete, h⟩ := Checked.bind_eq_ok.mp h
    obtain ⟨rfl, rfl⟩ := Prod.mk.inj (Except.ok.inj h)
    exact .inr ⟨rfl, n, cleared, isCleared, hn, hclear, hdelete⟩

private theorem eq_of_writeSubject {s : SubjectId} {values : List Text}
    (h : d.writeSubject s values = .ok (d', false)) : d' = d := by
  rw [writeSubject] at h
  split at h
  · exact (Prod.mk.inj (Except.ok.inj h)).1.symm
  · obtain ⟨written, -, h⟩ := Checked.bind_eq_ok.mp h
    cases h

theorem exists_of_addProperty {h : Handle} {name : Text} {values : List Text}
    (hadd : d.addProperty h name values = .ok d') :
    ∃ indent, d.indentBelow h = .ok indent ∧
      d'.lines = d.lines.take h.next ++ Line.make indent name values :: d.lines.drop h.next := by
  obtain ⟨indent, hindent, hinsert⟩ := Checked.bind_eq_ok.mp hadd
  simp only [insertLine] at hinsert
  split at hinsert
  · exact ⟨indent, hindent, Except.ok.inj hinsert ▸ rfl⟩
  · cases hinsert

/-- What the writing of a layout does to a document, and what it answers. -/
inductive LayoutWriting (d : Document) (h : Handle) (new : Layout) : Document → Bool → Prop
  | kept : LayoutWriting d h new d false
  | rewritten {n : Nat} {l l' : Line} (hl : d.lines[n]? = some l)
    (hset : l.setParameters (new.initialParameters d.options) = .ok l') :
    LayoutWriting d h new { d with lines := d.lines.set n l' } (l.text ≠ l'.text)
  | inserted {indent : Text} {written : Document} (hindent : d.indentBelow h = .ok indent)
    (hlines : written.lines = d.lines.take h.next ++
      Line.make indent new.token (new.initialParameters d.options) :: d.lines.drop h.next) :
    LayoutWriting d h new written true

theorem layoutWriting_of_writeLayout {input : SubjectId} {h : Handle} {new : Layout} {answer : Bool}
    (hwrite : d.writeLayout input h new = .ok (d', answer)) : d.LayoutWriting h new d' answer := by
  simp only [writeLayout] at hwrite
  split at hwrite
  · next hnew =>
    subst hnew
    split at hwrite
    · obtain ⟨rfl, rfl⟩ := Prod.mk.inj (Except.ok.inj hwrite)
      exact .kept
    · obtain ⟨written, hinsert, hwrite⟩ := Checked.bind_eq_ok.mp hwrite
      obtain ⟨rfl, rfl⟩ := Prod.mk.inj (Except.ok.inj hwrite)
      obtain ⟨inserted, hadd, hinsert⟩ := Checked.bind_eq_ok.mp hinsert
      obtain rfl := Except.ok.inj hinsert
      obtain ⟨indent, hindent, hlines⟩ := exists_of_addProperty hadd
      exact .inserted hindent hlines
  · split at hwrite
    · obtain ⟨rfl, rfl⟩ := Prod.mk.inj (Except.ok.inj hwrite)
      exact .kept
    · obtain ⟨found, hfound, hwrite⟩ := Checked.bind_eq_ok.mp hwrite
      split at hwrite
      · next l n =>
        obtain ⟨changed, hchange, hwrite⟩ := Checked.bind_eq_ok.mp hwrite
        obtain ⟨written, hwritten, hwrite⟩ := Checked.bind_eq_ok.mp hwrite
        obtain ⟨rfl, rfl⟩ := Prod.mk.inj (Except.ok.inj hwrite)
        obtain ⟨l₀, l', hget, hset, rfl⟩ := exists_of_changeLine hchange
        obtain ⟨hl, -, -⟩ := getElem?_of_findDirect? (inside_of_findDirect? hfound) hfound
        obtain rfl : l₀ = l := Option.some.inj (hget.symm.trans hl)
        have hlt := (List.getElem?_eq_some_iff.mp hget).1
        obtain rfl : l' = written := by
          rw [line_eq (l := l') (by simp [hlt])] at hwritten
          exact Except.ok.inj hwritten
        exact .rewritten hget hset
      · obtain ⟨inserted, hadd, hwrite⟩ := Checked.bind_eq_ok.mp hwrite
        obtain ⟨rfl, rfl⟩ := Prod.mk.inj (Except.ok.inj hwrite)
        obtain ⟨indent, hindent, hlines⟩ := exists_of_addProperty hadd
        exact .inserted hindent hlines

theorem LayoutWriting.eq_of_false {h : Handle} {new : Layout}
    (hwriting : d.LayoutWriting h new d' false) : d' = d := by
  generalize hanswer : false = answer at hwriting
  cases hwriting with
  | kept => rfl
  | @rewritten n l l' hl hset =>
    have htext : l.text = l'.text := by simpa using hanswer.symm
    obtain rfl := Line.eq_of_setParameters hset htext.symm
    obtain ⟨hlt, rfl⟩ := List.getElem?_eq_some_iff.mp hl
    rw [List.set_getElem_self hlt]
  | inserted => cases hanswer

theorem setLayout_cases {input : SubjectId} {new : Layout} {answer : Bool}
    (h : d.setLayout input new = .ok (d', answer)) :
    answer = false ∧ d' = d ∨
      ∃ s current written isWritten, d.registry.find? input = some s ∧ s.kind = .input ∧
        current ≠ new ∧ d.LayoutWriting s.handle new written isWritten ∧
        (d' = written ∧ answer = isWritten ∨
          ∃ isRemoved, written.deleteProperty input current.token = .ok (d', isRemoved) ∧
            answer = (isWritten || isRemoved)) := by
  rw [setLayout] at h
  split at h
  · obtain ⟨rfl, rfl⟩ := Prod.mk.inj (Except.ok.inj h)
    exact .inl ⟨rfl, rfl⟩
  · next s hfind =>
    split at h
    · next hkind =>
      obtain ⟨current, -, h⟩ := Checked.bind_eq_ok.mp h
      split at h
      · obtain ⟨rfl, rfl⟩ := Prod.mk.inj (Except.ok.inj h)
        exact .inl ⟨rfl, rfl⟩
      · next hne =>
        obtain ⟨⟨written, isWritten⟩, hwrite, h⟩ := Checked.bind_eq_ok.mp h
        have hwriting := layoutWriting_of_writeLayout hwrite
        refine .inr ⟨s, current, written, isWritten, hfind, hkind, hne, hwriting, ?_⟩
        dsimp only at h
        split at h
        · obtain ⟨⟨removed, isRemoved⟩, hremove, h⟩ := Checked.bind_eq_ok.mp h
          obtain ⟨rfl, rfl⟩ := Prod.mk.inj (Except.ok.inj h)
          exact .inr ⟨isRemoved, hremove, rfl⟩
        · obtain ⟨rfl, rfl⟩ := Prod.mk.inj (Except.ok.inj h)
          exact .inl ⟨rfl, rfl⟩
    · obtain ⟨rfl, rfl⟩ := Prod.mk.inj (Except.ok.inj h)
      exact .inl ⟨rfl, rfl⟩

private theorem eq_of_setLayout {input : SubjectId} {new : Layout}
    (h : d.setLayout input new = .ok (d', false)) : d' = d := by
  rcases setLayout_cases h with ⟨-, hsame⟩ | ⟨s, current, written, isWritten, -, -, -, hwriting, h⟩
  · exact hsame
  · rcases h with ⟨rfl, rfl⟩ | ⟨isRemoved, hremove, hanswer⟩
    · exact hwriting.eq_of_false
    · obtain ⟨rfl, rfl⟩ := Bool.or_eq_false_iff.mp hanswer.symm
      rcases deleteProperty_cases hremove with ⟨-, rfl⟩ | ⟨hyes, -⟩
      · exact hwriting.eq_of_false
      · cases hyes

theorem eq_of_perform {e : Edit} (h : d.perform e = .ok (d', false)) : d' = d := by
  cases e with
  | writeProperty s name values => exact eq_of_writeProperty h
  | deleteProperty s name => exact ((deleteProperty_cases h).resolve_right nofun).2
  | deleteBlock s => exact ((deleteBlock_cases h).resolve_right nofun).2
  | deleteSubject s => exact ((deleteSubject_cases h).resolve_right nofun).2
  | writeSubject s values => exact eq_of_writeSubject h
  | renameSprite s name => exact eq_of_writeSubject h
  | setLayout input new => exact eq_of_setLayout h

theorem eq_of_performEach {es : List Edit} {answers : List Bool}
    (h : d.performEach es = .ok (d', answers)) (hno : ∀ answer ∈ answers, answer = false) :
    d' = d := by
  induction es generalizing d answers with
  | nil => exact (Prod.mk.inj (Except.ok.inj h)).1.symm
  | cons e es ih =>
    obtain ⟨⟨d₁, answer⟩, hfirst, h⟩ := Checked.bind_eq_ok.mp h
    obtain ⟨⟨d₂, rest⟩, hrest, h⟩ := Checked.bind_eq_ok.mp h
    obtain ⟨rfl, rfl⟩ := Prod.mk.inj (Except.ok.inj h)
    simp only [List.forall_mem_cons] at hno
    rw [ih hrest hno.2]
    exact eq_of_perform (hno.1 ▸ hfirst)

end Document
end SpriteConfig

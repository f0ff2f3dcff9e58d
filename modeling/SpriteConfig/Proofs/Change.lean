import SpriteConfig.Document.Edit
import SpriteConfig.Proofs.Line
import SpriteConfig.Proofs.Registry
/-!
# Edits as changes of lines

Every edit is a short list of changes: a line is inserted, written anew or deleted, or a subject is
registered. What an edit does to a document is what its changes do one after the other, so that a
fact about edits is a fact about the four kinds of changes.
-/
namespace SpriteConfig

inductive Change
  /-- Inserts a line right after a handle. -/
  | insert (h : Handle) (indent name : Text) (values : List Text)
  /-- Gives a line other parameters. -/
  | rewrite (n : Nat) (values : List Text)
  /-- Deletes the lines from `start` to before `stop`. -/
  | delete (start stop : Nat)
  /-- Registers the sprite of an input on a line. -/
  | register (n : Nat) (input : SubjectId)
  deriving DecidableEq, Repr

/-- What a change asks for, beyond lines that exist: a new line is indented by spaces and tabs, and
a sprite is registered on a line that introduces one and has no subject yet, after its input. -/
def Change.Fits (d : Document) : Change → Prop
  | .insert _ indent _ _ => indent.IsIndentation
  | .register n input =>
    (∃ l, d.lines[n]? = some l ∧ l.definition = SubjectKind.sprite.token) ∧
      (∀ s ∈ d.registry.subjects, s.handle ≠ .line n) ∧
      ∃ s ∈ d.registry.subjects, s.id = input ∧ s.kind = .input ∧ s.handle.before (.line n) = true
  | .rewrite _ _ | .delete _ _ => True

def Change.Registers : Change → Prop
  | .register _ _ => True
  | .insert _ _ _ _ | .rewrite _ _ | .delete _ _ => False

namespace Document

def change (d : Document) : Change → Checked Document
  | .insert h indent name values => d.insertLine h (Line.make indent name values)
  | .rewrite n values => d.changeLine n values
  | .delete start stop => d.deleteLines start stop
  | .register n input =>
    if n < d.lines.length then
      .ok { d with registry := d.registry.add .sprite (.line n) (some input) }
    else .error (.noLine n)

def changeAll (d : Document) (cs : List Change) : Checked Document := cs.foldlM change d

/-- The change that inserts a property as the first line of the subject at a handle. -/
def additionOf (d : Document) (h : Handle) (name : Text) (values : List Text) : Checked Change :=
  return .insert h (← d.indentBelow h) name values

def writingOf (d : Document) (h : Handle) (name : Text) (values : List Text) : Checked Change := do
  match ← d.findDirect? h name with
  | some (_, n) => return .rewrite n values
  | none => d.additionOf h name values

def deletionOf (d : Document) (s : SubjectId) (name : Text) : Checked (List Change) := do
  match ← d.directLine? s name with
  | some (_, n) => return [.delete n (n + 1)]
  | none => return []

def clearingOf (d : Document) (s : SubjectId) : Checked (List Change) :=
  match d.registry.handle? s with
  | none | some .root => .ok []
  | some (.line n) => do
    let (start, block) ← d.block (.line n)
    let stop := d.withBlankLine (start + block.length)
    return if start = stop then [] else [.delete start stop]

def layoutWritingOf (d : Document) (input : SubjectId) (h : Handle) (new : Layout) :
    Checked (List Change) :=
  let isListing := !(d.registry.sprites input).isEmpty
  let values := new.initialParameters d.options
  if new = .sprite then
    if isListing then .ok []
    else return [← d.additionOf h new.token values, .register h.next input]
  else if values.isEmpty && !isListing then .ok []
  else return [← d.writingOf h new.token values]

def layoutReplacementOf (d : Document) (input : SubjectId) (h : Handle) (current new : Layout) :
    Checked (List Change) := do
  let writing ← d.layoutWritingOf input h new
  if current ≠ .sprite ∨ (d.registry.sprites input).length = 1 then
    let written ← d.changeAll writing
    return writing ++ (← written.deletionOf input current.token)
  else return writing

def changesOf (d : Document) : Edit → Checked (List Change)
  | .writeProperty s name values =>
    match d.registry.handle? s with
    | none => .ok []
    | some h => return [← d.writingOf h name values]
  | .deleteProperty s name => d.deletionOf s name
  | .deleteBlock s => d.clearingOf s
  | .deleteSubject s =>
    match d.registry.line? s with
    | none => .ok []
    | some n => return (← d.clearingOf s) ++ [.delete n (n + 1)]
  | .writeSubject s values =>
    match d.registry.line? s with
    | none => .ok []
    | some n => .ok [.rewrite n values]
  | .renameSprite s name =>
    match d.registry.line? s with
    | none => .ok []
    | some n => .ok [.rewrite n [name]]
  | .setLayout input new =>
    match d.registry.find? input with
    | none => .ok []
    | some s =>
      if s.kind = .input then do
        let current ← d.layout input
        if current = new then return []
        else d.layoutReplacementOf input s.handle current new
      else .ok []

def performAll (d : Document) (es : List Edit) : Checked Document :=
  es.foldlM (fun d e => Prod.fst <$> d.perform e) d

variable {d : Document}

@[simp] theorem changeAll_nil : d.changeAll [] = .ok d := rfl

theorem changeAll_cons (c : Change) (cs : List Change) :
    d.changeAll (c :: cs) = d.change c >>= fun d => d.changeAll cs :=
  List.foldlM_cons

theorem changeAll_singleton (c : Change) : d.changeAll [c] = d.change c := by
  cases h : d.change c <;> simp [changeAll_cons, h]

theorem changeAll_append (cs ds : List Change) :
    d.changeAll (cs ++ ds) = d.changeAll cs >>= fun d => d.changeAll ds :=
  List.foldlM_append

private theorem additionOf_bind (h : Handle) (name : Text) (values : List Text) :
    d.additionOf h name values >>= d.change = d.addProperty h name values := by
  simp only [additionOf, addProperty, bind_assoc, pure_bind, change]

private theorem writingOf_bind (h : Handle) (name : Text) (values : List Text) :
    d.writingOf h name values >>= d.change =
      (do
        match ← d.findDirect? h name with
        | some (_, n) => d.changeLine n values
        | none => d.addProperty h name values) := by
  rw [writingOf, bind_assoc]
  congr 1
  funext found
  cases found with
  | none => exact additionOf_bind h name values
  | some p => simp only [pure_bind, change]

theorem eq_of_additionOf {h : Handle} {name : Text} {values : List Text} {c : Change}
    (hc : d.additionOf h name values = .ok c) :
    ∃ indent, d.indentBelow h = .ok indent ∧ c = .insert h indent name values := by
  obtain ⟨indent, hindent, hc⟩ := Checked.bind_eq_ok.mp hc
  exact ⟨indent, hindent, (Except.ok.inj hc).symm⟩

theorem eq_of_writingOf {h : Handle} {name : Text} {values : List Text} {c : Change}
    (hc : d.writingOf h name values = .ok c) :
    (∃ indent, c = .insert h indent name values) ∨
      ∃ l n, d.findDirect? h name = .ok (some (l, n)) ∧ c = .rewrite n values := by
  obtain ⟨found, hfound, hc⟩ := Checked.bind_eq_ok.mp hc
  cases found with
  | none =>
    obtain ⟨indent, -, hc⟩ := eq_of_additionOf hc
    exact .inl ⟨indent, hc⟩
  | some p => exact .inr ⟨p.1, p.2, hfound, (Except.ok.inj hc).symm⟩

private theorem singleton_bind (f : Checked Change) :
    (do return [← f]) >>= d.changeAll = f >>= d.change := by
  simp only [bind_assoc, pure_bind, changeAll_singleton]

theorem writeProperty_of_handle? {s : SubjectId} {h : Handle} (hh : d.registry.handle? s = some h)
    (name : Text) (values : List Text) :
    d.writeProperty s name values =
      (·, true) <$> (d.writingOf h name values >>= d.change) := by
  simp only [writeProperty, hh, writingOf_bind, map_bind]
  congr 1
  funext found
  cases found <;> simp only [map_eq_pure_bind]

private theorem writeProperty_eq (s : SubjectId) (name : Text) (values : List Text) :
    Prod.fst <$> d.writeProperty s name values =
      d.changesOf (.writeProperty s name values) >>= d.changeAll := by
  cases hh : d.registry.handle? s with
  | none =>
    rw [writeProperty, changesOf]
    simp only [hh]
    rfl
  | some h =>
    rw [writeProperty_of_handle? hh, changesOf]
    simp only [hh, singleton_bind]
    cases d.writingOf h name values >>= d.change <;> rfl

private theorem deleteProperty_eq (s : SubjectId) (name : Text) :
    Prod.fst <$> d.deleteProperty s name = d.deletionOf s name >>= d.changeAll := by
  rw [deleteProperty, deletionOf, map_bind, bind_assoc]
  congr 1
  funext found
  cases found with
  | none => rfl
  | some p => simp only [map_bind, map_pure, bind_pure, pure_bind, changeAll_singleton, change]

private theorem deleteBlock_eq (s : SubjectId) :
    Prod.fst <$> d.deleteBlock s = d.clearingOf s >>= d.changeAll := by
  rw [deleteBlock, clearingOf]
  cases d.registry.handle? s with
  | none => rfl
  | some h =>
    cases h with
    | root => rfl
    | line n =>
      simp only [map_bind, bind_assoc, pure_bind]
      congr 1
      funext found
      split <;>
        simp only [map_bind, map_pure, bind_pure, changeAll_singleton, changeAll_nil, change]
      rfl

private theorem deleteSubject_eq (s : SubjectId) :
    Prod.fst <$> d.deleteSubject s = d.changesOf (.deleteSubject s) >>= d.changeAll := by
  rw [deleteSubject, changesOf]
  cases d.registry.line? s with
  | none => rfl
  | some n =>
    have hclear := deleteBlock_eq (d := d) s
    simp only [map_bind, bind_assoc, pure_bind, changeAll_append, changeAll_singleton, change,
      map_pure, bind_pure]
    rw [← bind_assoc, ← hclear, bind_map_left]

private theorem writeSubject_eq (s : SubjectId) (values : List Text) :
    Prod.fst <$> d.writeSubject s values =
      d.changesOf (.writeSubject s values) >>= d.changeAll := by
  rw [writeSubject, changesOf]
  cases d.registry.line? s with
  | none => rfl
  | some n =>
    simp only [map_bind, map_pure, bind_pure]
    exact (changeAll_singleton (.rewrite n values)).symm

private theorem next_lt_of_addProperty {d' : Document} {h : Handle} {name : Text}
    {values : List Text} (hadd : d.addProperty h name values = .ok d') :
    h.next < d'.lines.length := by
  obtain ⟨indent, -, hinsert⟩ := Checked.bind_eq_ok.mp hadd
  simp only [insertLine] at hinsert
  split at hinsert
  · next hle =>
    simp only [Except.ok.injEq] at hinsert
    subst hinsert
    simp only [Handle.next, List.length_append, List.length_take, List.length_cons,
      List.length_drop]
    omega
  · simp at hinsert

private theorem insertSprite_eq (input : SubjectId) (h : Handle) (name : Text)
    (hname : name = Layout.sprite.token) (values : List Text) :
    d.insertSprite input h values =
      (do return [← d.additionOf h name values, .register h.next input]) >>= d.changeAll := by
  have hadd := additionOf_bind (d := d) h Layout.sprite.token values
  rw [insertSprite, hname]
  cases hc : d.additionOf h Layout.sprite.token values with
  | error e => rw [← hadd, hc]; rfl
  | ok c =>
    rw [hc, Checked.ok_bind] at hadd
    rw [← hadd, Checked.ok_bind]
    cases hd : d.change c with
    | error e => simp [changeAll_cons, pure, Except.pure, hd]
    | ok d' =>
      have hlt : h.next < d'.lines.length := next_lt_of_addProperty (hadd.symm.trans hd)
      have hregister : d'.change (.register h.next input) =
          .ok { d' with registry := d'.registry.add .sprite (.line h.next) (some input) } := by
        rw [change, if_pos hlt]
      simp only [pure, Except.pure, Checked.ok_bind, changeAll_cons, hd, hregister, changeAll_nil]
      rfl

theorem exists_of_changeLine {d' : Document} {n : Nat} {values : List Text}
    (h : d.changeLine n values = .ok d') :
    ∃ l l', d.lines[n]? = some l ∧ l.setParameters values = .ok l' ∧
      d' = { d with lines := d.lines.set n l' } := by
  obtain ⟨l, hl, h⟩ := Checked.bind_eq_ok.mp h
  obtain ⟨l', hset, h⟩ := Checked.bind_eq_ok.mp h
  exact ⟨l, l', line_eq_ok_iff.mp hl, hset, (Except.ok.inj h).symm⟩

private theorem exists_line_of_changeLine {d' : Document} {n : Nat} {values : List Text}
    (h : d.changeLine n values = .ok d') : ∃ l, d'.line n = .ok l := by
  obtain ⟨l, l', hl, -, rfl⟩ := exists_of_changeLine h
  have hlt := (List.getElem?_eq_some_iff.mp hl).1
  exact ⟨l', line_eq_ok_iff.mpr (by simp [hlt])⟩

private theorem writeLayout_eq (input : SubjectId) (h : Handle) (new : Layout) :
    Prod.fst <$> d.writeLayout input h new = d.layoutWritingOf input h new >>= d.changeAll := by
  simp only [writeLayout, layoutWritingOf]
  split
  · next hnew =>
    split
    · rfl
    · simp only [map_bind, map_pure, bind_pure]
      exact insertSprite_eq input h _ (by rw [hnew]) _
  · split
    · rfl
    · rw [singleton_bind, writingOf_bind, map_bind]
      congr 1
      funext found
      cases found with
      | none => simp only [map_bind, map_pure, bind_pure]
      | some p =>
        simp only [map_bind, map_pure]
        cases hc : d.changeLine p.2 (new.initialParameters d.options) with
        | error e => rfl
        | ok d' =>
          obtain ⟨l, hl⟩ := exists_line_of_changeLine hc
          rw [Checked.ok_bind, hl]
          rfl

private theorem replaceLayout_eq (input : SubjectId) (h : Handle) (current new : Layout) :
    Prod.fst <$> d.replaceLayout input h current new =
      d.layoutReplacementOf input h current new >>= d.changeAll := by
  have hwrite := writeLayout_eq (d := d) input h new
  rw [replaceLayout, layoutReplacementOf, map_bind, bind_assoc]
  cases hc : d.layoutWritingOf input h new with
  | error e =>
    rw [hc, Checked.error_bind] at hwrite
    cases hw : d.writeLayout input h new with
    | error f => simpa [hw] using hwrite
    | ok p => simp [hw] at hwrite
  | ok writing =>
    rw [hc, Checked.ok_bind] at hwrite
    cases hw : d.writeLayout input h new with
    | error f =>
      rw [hw, Checked.map_error] at hwrite
      split <;> simp [← hwrite, pure, Except.pure]
    | ok p =>
      rw [hw, Checked.map_ok] at hwrite
      have hdelete := deleteProperty_eq (d := p.1) input current.token
      split
      · simp only [Checked.ok_bind, ← hwrite, map_bind, map_pure, bind_assoc, pure_bind,
          changeAll_append]
        rw [← hdelete, map_eq_pure_bind]
      · simp only [Checked.ok_bind, pure_bind, ← hwrite]
        rfl

/-- What an edit does to a document is what its changes do. -/
theorem perform_eq_changeAll (d : Document) (e : Edit) :
    Prod.fst <$> d.perform e = d.changesOf e >>= d.changeAll := by
  cases e with
  | writeProperty s name values => exact writeProperty_eq s name values
  | deleteProperty s name => exact deleteProperty_eq s name
  | deleteBlock s => exact deleteBlock_eq s
  | deleteSubject s => exact deleteSubject_eq s
  | writeSubject s values => exact writeSubject_eq s values
  | renameSprite s name => exact writeSubject_eq s [name]
  | setLayout input new =>
    rw [perform, setLayout, changesOf]
    cases d.registry.find? input with
    | none => rfl
    | some s =>
      dsimp only
      split
      · rw [map_bind, bind_assoc]
        congr 1
        funext current
        split
        · rfl
        · exact replaceLayout_eq input s.handle current new
      · rfl

theorem performAll_cons (e : Edit) (es : List Edit) :
    d.performAll (e :: es) = Prod.fst <$> d.perform e >>= fun d => d.performAll es :=
  List.foldlM_cons

/-- What a change can do to a document. -/
inductive Step (d : Document) : Change → Document → Prop
  | insert {h : Handle} {indent name : Text} {values : List Text} (hle : h.next ≤ d.lines.length) :
    Step d (.insert h indent name values)
      { d with
        lines := d.lines.take h.next ++ Line.make indent name values :: d.lines.drop h.next
        registry := d.registry.shiftAfter h 1 }
  | rewrite {n : Nat} {values : List Text} {l l' : Line} (hl : d.lines[n]? = some l)
      (hset : l.setParameters values = .ok l') :
    Step d (.rewrite n values) { d with lines := d.lines.set n l' }
  | delete {start stop : Nat} (hle : start ≤ stop) (hstop : stop ≤ d.lines.length) :
    Step d (.delete start stop)
      { d with
        lines := d.lines.take start ++ d.lines.drop stop
        registry := d.registry.deleteLines start stop }
  | register {n : Nat} {input : SubjectId} (hlt : n < d.lines.length) :
    Step d (.register n input)
      { d with registry := d.registry.add .sprite (.line n) (some input) }

theorem Step.change_eq {d' : Document} {c : Change} (h : d.Step c d') : d.change c = .ok d' := by
  cases h with
  | insert hle =>
    simp only [change, insertLine]
    exact if_pos hle
  | rewrite hl hset =>
    rw [change, changeLine, line, hl]
    simp only [Checked.ok_bind, hset]
    rfl
  | delete hle hstop =>
    rw [change, deleteLines, if_pos ⟨hle, hstop⟩]
  | register hlt => rw [change, if_pos hlt]

theorem step_of_change {d' : Document} {c : Change} (h : d.change c = .ok d') : d.Step c d' := by
  cases c with
  | insert handle indent name values =>
    simp only [change, insertLine] at h
    split at h
    · next hle => exact Except.ok.inj h ▸ .insert hle
    · cases h
  | rewrite n values =>
    obtain ⟨l, l', hl, hset, rfl⟩ := exists_of_changeLine h
    exact .rewrite hl hset
  | delete start stop =>
    rw [change, deleteLines] at h
    split at h
    · next hle => exact Except.ok.inj h ▸ .delete hle.1 hle.2
    · cases h
  | register n input =>
    rw [change] at h
    split at h
    · next hlt => exact Except.ok.inj h ▸ .register hlt
    · cases h

theorem Step.fits_register {d' : Document} {s : Subject} {indent : Text} {values : List Text}
    (hstep : d.Step (.insert s.handle indent Layout.sprite.token values) d')
    (hs : s ∈ d.registry.subjects) (hkind : s.kind = .input) :
    (Change.register s.handle.next s.id).Fits d' := by
  cases hstep with
  | insert hle =>
    have hline := getElem?_inserted_self hle (Line.make indent Layout.sprite.token values)
    have hfree : ∀ t ∈ (d.registry.shiftAfter s.handle 1).subjects,
        t.handle ≠ .line s.handle.next := by
      intro t ht
      obtain ⟨t, -, rfl⟩ := List.mem_map.mp ht
      exact t.handle.moved_ne_next s.handle
    refine ⟨⟨_, hline, Line.make_definition _ _ _⟩, hfree, _, List.mem_map_of_mem hs, rfl, hkind, ?_⟩
    rw [Handle.moved_self]
    exact s.handle.before_next

theorem Step.options_eq {d' : Document} {c : Change} (h : d.Step c d') : d'.options = d.options := by
  cases h <;> rfl

/-- What holds of every line holds of every line after a change, if it holds of the line that is
inserted or written anew. -/
theorem Step.forall_lines {Q : Line → Prop} {c : Change} {d' : Document} (hstep : d.Step c d')
    (h : ∀ l ∈ d.lines, Q l)
    (hmake : ∀ {h indent name values}, c = .insert h indent name values →
      Q (Line.make indent name values))
    (hset : ∀ {n values l l'}, c = .rewrite n values → l ∈ d.lines →
      l.setParameters values = .ok l' → Q l') :
    ∀ l ∈ d'.lines, Q l := by
  intro l hl
  cases hstep with
  | insert hle =>
    simp only [List.mem_append, List.mem_cons] at hl
    rcases hl with hl | rfl | hl
    · exact h l (List.mem_of_mem_take hl)
    · exact hmake rfl
    · exact h l (List.mem_of_mem_drop hl)
  | rewrite hget hwrite =>
    rcases List.mem_or_eq_of_mem_set hl with hl | rfl
    · exact h l hl
    · exact hset rfl (List.mem_of_getElem? hget) hwrite
  | delete hle hstop =>
    rcases List.mem_append.mp hl with hl | hl
    · exact h l (List.mem_of_mem_take hl)
    · exact h l (List.mem_of_mem_drop hl)
  | register hlt => exact h l hl

/-- Changes that fit, one after the other. -/
inductive Follows : Document → List Change → Document → Prop
  | nil (d : Document) : Follows d [] d
  | cons {d d₁ d₂ : Document} {c : Change} {cs : List Change} (hfits : c.Fits d)
    (hstep : d.Step c d₁) (hrest : Follows d₁ cs d₂) : Follows d (c :: cs) d₂

theorem Follows.changeAll_eq {d' : Document} {cs : List Change} (h : d.Follows cs d') :
    d.changeAll cs = .ok d' := by
  induction h with
  | nil d => rfl
  | cons _ hstep _ ih => rw [changeAll_cons, hstep.change_eq, Checked.ok_bind, ih]

/-- What every change of a kind preserves is preserved by changes one after the other. -/
theorem Follows.preserves {P : Document → Prop} {W : Change → Prop}
    (hP : ∀ {d d' : Document} {c : Change}, P d → c.Fits d → W c → d.Step c d' → P d')
    {d' : Document} {cs : List Change} (h : d.Follows cs d') (hd : P d) (hw : ∀ c ∈ cs, W c) :
    P d' := by
  induction h with
  | nil d => exact hd
  | cons hfits hstep _ ih =>
    simp only [List.forall_mem_cons] at hw
    exact ih (hP hd hfits hw.1 hstep) hw.2

theorem Follows.append {d₁ d₂ : Document} {cs ds : List Change} (h : d.Follows cs d₁)
    (h' : d₁.Follows ds d₂) : d.Follows (cs ++ ds) d₂ := by
  induction h with
  | nil d => exact h'
  | cons hfits hstep _ ih => exact .cons hfits hstep (ih h')

theorem Follows.exists_of_append {d' : Document} {cs ds : List Change}
    (h : d.Follows (cs ++ ds) d') : ∃ d₁, d.Follows cs d₁ ∧ d₁.Follows ds d' := by
  induction cs generalizing d with
  | nil => exact ⟨d, .nil d, h⟩
  | cons c cs ih =>
    cases h with
    | cons hfits hstep hrest =>
      obtain ⟨d₁, hcs, hds⟩ := ih hrest
      exact ⟨d₁, .cons hfits hstep hcs, hds⟩

theorem Follows.eq_of_nil {d' : Document} (h : d.Follows [] d') : d' = d := by
  cases h
  rfl

theorem Follows.step_of_single {d' : Document} {c : Change} (h : d.Follows [c] d') :
    c.Fits d ∧ d.Step c d' := by
  cases h with
  | cons hfits hstep hrest => exact hrest.eq_of_nil ▸ ⟨hfits, hstep⟩

theorem Follows.single {d' : Document} {c : Change} (hfits : c.Fits d) (hstep : d.Step c d') :
    d.Follows [c] d' :=
  .cons hfits hstep (.nil d')

end Document
end SpriteConfig

import SpriteConfig.Proofs.Rescan
/-!
# Registries that keep up with a rebuild

The registry is told of lines that come and go, and never looks at the lines again. As long as the
lines of subjects are left to the edits of subjects and no sheet is deleted, it says what a registry
would say that is built anew from the lines. This takes sprites that stand in the blocks of their
inputs: then an input that is deleted takes its sprites along.
-/
namespace SpriteConfig

open List (Forall₂)
open Registry (isSheetLine)

def IsProperty (name : Text) : Prop := ∀ kind : SubjectKind, name ≠ kind.token

instance (name : Text) : Decidable (IsProperty name) :=
  decidable_of_iff (name ≠ SubjectKind.sheet.token ∧ name ≠ SubjectKind.input.token ∧
      name ≠ SubjectKind.sprite.token) <| by
    constructor
    · rintro ⟨hsheet, hinput, hsprite⟩ kind
      cases kind <;> assumption
    · exact fun h => ⟨h .sheet, h .input, h .sprite⟩

theorem Layout.isProperty_token {layout : Layout} (h : layout ≠ .sprite) :
    IsProperty layout.token := by
  intro kind
  cases layout with
  | sprite => exact absurd rfl h
  | _ => cases kind <;> decide

theorem Line.Shaped.isProperty_of_isBlank {l : Line} (hs : l.Shaped) (hb : l.isBlank = true) :
    IsProperty l.definition := by
  intro kind hkind
  obtain ⟨indent, rest, hr⟩ := hs (isDefinition_of_eq_token hkind)
  have hnot : kind.token.all Text.isSpace = false := by cases kind <;> decide
  rw [isBlank, Text.isBlank, hr.text_eq, hkind, List.all_append, List.all_append, hnot] at hb
  simp at hb

namespace Document

/-- Whether the registry is a scan of the lines, as it stays under edits. -/
structure Tracked (d : Document) : Prop where
  valid : d.Valid
  nests : d.options.Nests
  coherent : d.registry.Coherent d.lines
  scanned : d.registry.Scanned d.lines
  enclosed : Enclosed .unopened d.lines

variable {d d' : Document}

theorem Tracked.of_step (h : d.Tracked) {c : Change} (hfits : c.Fits d) (hstep : d.Step c d')
    (hscanned : d'.registry.Scanned d'.lines) (henclosed : Enclosed .unopened d'.lines) :
    d'.Tracked :=
  ⟨h.valid.step hfits hstep, hstep.options_eq ▸ h.nests,
    hstep.coherent h.coherent fun _ => hfits, hscanned, henclosed⟩

theorem Tracked.rewrite (h : d.Tracked) {n : Nat} {values : List Text}
    (hstep : d.Step (.rewrite n values) d') : d'.Tracked := by
  have hfits : (Change.rewrite n values).Fits d := trivial
  have hkept : d'.registry = d.registry ∧ Forall₂ Line.Alike d.lines d'.lines := by
    cases hstep with
    | rewrite hl hset =>
      exact ⟨rfl, forall₂_set Line.Alike.refl hl (Line.alike_setParameters hset)⟩
  obtain ⟨hregistry, halike⟩ := hkept
  exact h.of_step hfits hstep (hregistry ▸ h.scanned.congr halike) (h.enclosed.congr halike)

theorem Tracked.not_closes_make (h : d.Tracked) {s : Subject} (hs : s ∈ d.registry.subjects)
    {indent : Text} (hindent : d.indentBelow s.handle = .ok indent) (name : Text)
    (values : List Text) {level : Nat}
    (hlevel : Enclosure.unopened.afterAll (d.lines.take s.handle.next) = .inside level) :
    (Line.make indent name values).closes level = false := by
  obtain ⟨indent', hindent', hi⟩ := h.valid.exists_indentBelow (h.valid.inside hs)
  obtain rfl : indent' = indent := Except.ok.inj (hindent'.symm.trans hindent)
  cases hh : s.handle with
  | root => simp [hh, Handle.next, Handle.line?, Enclosure.afterAll] at hlevel
  | line n =>
    obtain ⟨l, hl, hdef⟩ := h.valid.standing s hs n hh
    have hd : l.isDefinition = true := Line.isDefinition_of_eq_token hdef
    rw [hh] at hlevel hindent
    have hnext : (Handle.line n).next = n + 1 := rfl
    rw [hnext, List.take_add_one, hl, Option.toList_some, Enclosure.afterAll_append] at hlevel
    have hle : level ≤ l.level := Enclosure.le_of_after_eq_inside hlevel hd
    have hlt := h.valid.lt_indentBelow h.nests hl hd hindent
    by_cases hname : name = []
    · simp [Line.closes, Line.isDefinition, hname]
    · simp only [Line.closes, Line.level_make hi hname, Bool.and_eq_false_iff,
        decide_eq_false_iff_not]
      exact .inr (by omega)

theorem Tracked.insert (h : d.Tracked) {s : Subject} (hs : s ∈ d.registry.subjects)
    {indent name : Text} {values : List Text} (hindent : d.indentBelow s.handle = .ok indent)
    (hname : IsProperty name) (hstep : d.Step (.insert s.handle indent name values) d') :
    d'.Tracked := by
  obtain ⟨indent', hindent', hi⟩ := h.valid.exists_indentBelow (h.valid.inside hs)
  obtain rfl : indent' = indent := Except.ok.inj (hindent'.symm.trans hindent)
  have hfits : (Change.insert s.handle indent' name values).Fits d := hi
  refine h.of_step hfits hstep ?_ ?_
  · cases hstep with
    | insert hle =>
      refine Registry.Scanned.insert ?_ (by simp [hle]) ?_
      · rw [List.take_append_drop]
        exact h.scanned
      · rw [Line.make_definition]
        exact hname
  · cases hstep with
    | insert hle =>
      refine Enclosed.insert ?_ ?_ ?_ ?_
      · rw [List.take_append_drop]
        exact h.enclosed
      · rw [Line.make_definition]
        exact hname .input
      · exact fun level hlevel => h.not_closes_make hs hindent name values hlevel
      · rw [Line.make_definition]
        exact fun hsprite => absurd hsprite (hname .sprite)

theorem Tracked.insertSprite (h : d.Tracked) {s : Subject} (hs : s ∈ d.registry.subjects)
    (hkind : s.kind = .input) {indent : Text} {values : List Text}
    (hindent : d.indentBelow s.handle = .ok indent)
    (hfollows : d.Follows [.insert s.handle indent SubjectKind.sprite.token values,
      .register s.handle.next s.id] d') : d'.Tracked := by
  have hvalid := h.valid.follows hfollows
  cases hfollows with
  | cons hfits hinsert hrest =>
    obtain ⟨hfits', hregister⟩ := hrest.step_of_single
    have hcoherent := hinsert.coherent h.coherent fun _ => hfits
    have hcoherent' := hregister.coherent hcoherent fun _ => hfits'
    have hopen : ∀ level, Enclosure.unopened.afterAll (d.lines.take s.handle.next) =
        .inside level → (Line.make indent SubjectKind.sprite.token values).closes level = false :=
      fun level hlevel => h.not_closes_make hs hindent _ values hlevel
    cases hh : s.handle with
    | root => simp [h.coherent.isSheet s hs hh] at hkind
    | line n =>
      obtain ⟨l, hl, hdef⟩ := h.valid.standing s hs n hh
      rw [hh] at hinsert hregister hopen
      cases hinsert with
      | insert hle =>
        cases hregister with
        | register hlt =>
          refine ⟨hvalid, h.nests, hcoherent', ?_, ?_⟩
          · exact h.scanned.insertSprite hs hh hkind (Line.make_definition _ _ _)
          · refine Enclosed.insert ?_ ?_ hopen fun _ => ?_
            · rw [List.take_append_drop]
              exact h.enclosed
            · rw [Line.make_definition]
              decide
            · have hnext : (Handle.line n).next = n + 1 := rfl
              have hinput : l.definition = SubjectKind.input.token := hkind ▸ hdef
              rw [hnext, List.take_add_one, hl, Option.toList_some, Enclosure.afterAll_append]
              have hinside : ∀ e : Enclosure, e.afterAll [l] = .inside l.level :=
                fun e => Enclosure.after_of_input hinput
              simp [hinside]

theorem Tracked.delete (h : d.Tracked) {as bs cs : List Line} (hlines : d.lines = as ++ (bs ++ cs))
    (hsheet : ∀ l ∈ bs, isSheetLine l = false)
    (hinput : (∀ l ∈ bs, l.definition ≠ SubjectKind.input.token) ∨ Detached cs)
    (hstep : d.Step (.delete as.length (as.length + bs.length)) d') :
    d'.Tracked ∧ d'.lines = as ++ cs := by
  have htake : d.lines.take as.length = as := by rw [hlines, List.take_left]
  have hdrop : d.lines.drop (as.length + bs.length) = cs := by
    rw [hlines, ← List.append_assoc, ← List.length_append, List.drop_left]
  have hkept : d'.lines = as ++ cs ∧
      d'.registry = d.registry.deleteLines as.length (as.length + bs.length) := by
    cases hstep with
    | delete hle hstop => exact ⟨by rw [htake, hdrop], rfl⟩
  obtain ⟨hleft, hregistry⟩ := hkept
  have hfits : (Change.delete as.length (as.length + bs.length)).Fits d := trivial
  refine ⟨h.of_step hfits hstep ?_ ?_, hleft⟩
  · rw [hregistry, hleft]
    exact (hlines ▸ h.scanned).delete h.coherent.nodup hsheet hinput
  · rw [hleft]
    exact (hlines ▸ h.enclosed).delete hinput

theorem Tracked.exists_cleared (h : d.Tracked) {n : Nat} {l : Line} (hl : d.lines[n]? = some l) :
    ∃ bs cs, d.lines.drop (n + 1) = bs ++ cs ∧
      d.withBlankLine (n + 1 + (blockBelow l.level (d.lines.drop (n + 1))).length) =
        n + 1 + bs.length ∧
      (∀ m ∈ bs, isSheetLine m = false) ∧
      ((∀ m ∈ bs, m.definition ≠ SubjectKind.input.token) ∨ Detached cs) ∧
      (l.definition = SubjectKind.input.token → Detached cs) := by
  have hall := h.enclosed
  rw [eq_take_cons_drop hl] at hall
  obtain ⟨rest, hbelow, hinputs, hown⟩ := (enclosed_append.mp hall).2.exists_block
  have hsheets : ∀ m ∈ blockBelow l.level (d.lines.drop (n + 1)), isSheetLine m = false :=
    fun m hm => isSheetLine_of_mem_blockBelow hm
  generalize blockBelow l.level (d.lines.drop (n + 1)) = block at hbelow hinputs hsheets ⊢
  have hstop : d.lines[n + 1 + block.length]? = rest.head? := by
    rw [← List.getElem?_drop, hbelow, List.getElem?_append_right (Nat.le_refl _), Nat.sub_self,
      List.head?_eq_getElem?]
  rw [withBlankLine, hstop]
  split
  · next hblank =>
    cases rest with
    | nil => simp at hblank
    | cons w rest =>
      have hmem : w ∈ d.lines := by
        have hin : w ∈ d.lines.drop (n + 1) := by simp [hbelow]
        exact List.mem_of_mem_drop hin
      have hw : IsProperty w.definition :=
        (h.valid.shaped w hmem).isProperty_of_isBlank (by simpa using hblank)
      have hwsheet : isSheetLine w = false := by simp [isSheetLine, hw .sheet]
      refine ⟨block ++ [w], rest, by simp [hbelow], by simp [Nat.add_assoc], ?_, ?_, ?_⟩
      · simpa [or_imp, forall_and] using ⟨hsheets, hwsheet⟩
      · refine hinputs.imp (fun hnone => ?_) fun hdetached => hdetached.tail (hw .input)
        simpa [or_imp, forall_and] using ⟨hnone, hw .input⟩
      · exact fun hinput => (hown hinput).tail (hw .input)
  · exact ⟨block, rest, hbelow, rfl, hsheets, hinputs, hown⟩

theorem Tracked.of_nil (h : d.Tracked) {cs : List Change}
    (hcs : (.ok [] : Checked (List Change)) = .ok cs) (hfollows : d.Follows cs d') :
    d'.Tracked := by
  obtain rfl := Except.ok.inj hcs
  exact hfollows.eq_of_nil ▸ h

theorem Tracked.clearing (h : d.Tracked) {s : SubjectId} {cs : List Change}
    (hcs : d.clearingOf s = .ok cs) (hfollows : d.Follows cs d') :
    d'.Tracked ∧ ∀ n l, d.registry.line? s = some n → d.lines[n]? = some l →
      d'.lines[n]? = some l ∧
        (l.definition = SubjectKind.input.token → Detached (d'.lines.drop (n + 1))) := by
  cases hm : d.registry.line? s with
  | none =>
    rw [clearingOf_eq_nil hm] at hcs
    exact ⟨h.of_nil hcs hfollows, by simp⟩
  | some m =>
    obtain ⟨subject, l, -, hl, -⟩ := h.valid.exists_line hm
    obtain ⟨bs, rest, hbelow, hstop, hsheet, hinput, hown⟩ := h.exists_cleared hl
    rw [clearingOf_eq hm hl, hstop] at hcs
    dsimp only at hcs
    split at hcs
    · next heq =>
      obtain rfl : bs = [] := List.length_eq_zero_iff.mp (by omega)
      refine ⟨h.of_nil hcs hfollows, ?_⟩
      obtain rfl := Except.ok.inj hcs
      obtain rfl := hfollows.eq_of_nil
      rintro n l' ⟨⟩ hl'
      obtain rfl : l' = l := Option.some.inj (hl'.symm.trans hl)
      exact ⟨hl, hbelow ▸ hown⟩
    · obtain rfl := Except.ok.inj hcs
      have hlen : (d.lines.take (m + 1)).length = m + 1 := by
        have hlt := (List.getElem?_eq_some_iff.mp hl).1
        rw [List.length_take]
        omega
      have hlines : d.lines = d.lines.take (m + 1) ++ (bs ++ rest) := by
        rw [← hbelow, List.take_append_drop]
      have hstep := hfollows.step_of_single.2
      rw [← hlen] at hstep
      obtain ⟨htracked, hleft⟩ := h.delete hlines hsheet hinput hstep
      refine ⟨htracked, ?_⟩
      rintro n l' ⟨⟩ hl'
      obtain rfl : l' = l := Option.some.inj (hl'.symm.trans hl)
      constructor
      · rw [hleft, List.getElem?_append_left (by omega), List.getElem?_take_of_lt (by omega), hl]
      · rw [hleft, List.drop_left' hlen]
        exact hown

theorem Tracked.deleteLine (h : d.Tracked) {n : Nat} {l : Line} (hl : d.lines[n]? = some l)
    (hsheet : l.definition ≠ SubjectKind.sheet.token)
    (hinput : l.definition = SubjectKind.input.token → Detached (d.lines.drop (n + 1)))
    (hstep : d.Step (.delete n (n + 1)) d') : d'.Tracked := by
  have hlen : (d.lines.take n).length = n := by
    have hlt := (List.getElem?_eq_some_iff.mp hl).1
    rw [List.length_take]
    omega
  have hlines : d.lines = d.lines.take n ++ ([l] ++ d.lines.drop (n + 1)) := eq_take_cons_drop hl
  refine (h.delete hlines ?_ ?_ ?_).1
  · simp [isSheetLine, hsheet]
  · by_cases hdef : l.definition = SubjectKind.input.token
    · exact .inr (hinput hdef)
    · exact .inl (by simpa using hdef)
  · rwa [hlen]

theorem Tracked.deletion (h : d.Tracked) {s : SubjectId} {name : Text} {cs : List Change}
    (hsheet : name ≠ SubjectKind.sheet.token) (hinput : name ≠ SubjectKind.input.token)
    (hcs : d.deletionOf s name = .ok cs) (hfollows : d.Follows cs d') : d'.Tracked := by
  obtain ⟨found, hfound, hat⟩ := h.valid.exists_directLine? s name
  rw [deletionOf, hfound, Checked.ok_bind] at hcs
  cases found with
  | none =>
    exact h.of_nil hcs hfollows
  | some p =>
    obtain ⟨hl, -, hdef⟩ := hat p.1 p.2 rfl
    obtain rfl := Except.ok.inj hcs
    exact h.deleteLine hl (hdef ▸ hsheet) (fun hdef' => absurd (hdef.symm.trans hdef') hinput)
      hfollows.step_of_single.2

theorem Tracked.subjectDeletion (h : d.Tracked) {s : SubjectId} {n : Nat}
    (hs : d.registry.line? s = some n) (hkind : d.registry.kind? s ≠ some .sheet)
    {clearing : List Change} (hclearing : d.clearingOf s = .ok clearing)
    (hfollows : d.Follows (clearing ++ [.delete n (n + 1)]) d') : d'.Tracked := by
  obtain ⟨d₁, hfirst, hrest⟩ := hfollows.exists_of_append
  obtain ⟨hcleared, hown⟩ := h.clearing hclearing hfirst
  obtain ⟨subject, l, hfind, hl, hdef⟩ := h.valid.exists_line hs
  obtain ⟨hl', hdetached⟩ := hown n l hs hl
  have hsheet : l.definition ≠ SubjectKind.sheet.token := by
    intro hdef'
    have hkind' : subject.kind = .sheet := SubjectKind.token_inj.mp (hdef.symm.trans hdef')
    simp [Registry.kind?, hfind, hkind'] at hkind
  exact hcleared.deleteLine hl' hsheet hdetached hrest.step_of_single.2

theorem Tracked.writing (h : d.Tracked) {s : Subject} (hs : s ∈ d.registry.subjects) {name : Text}
    (hname : IsProperty name) {values : List Text} {c : Change}
    (hc : d.writingOf s.handle name values = .ok c) (hstep : d.Step c d') : d'.Tracked := by
  obtain ⟨found, -, hc⟩ := Checked.bind_eq_ok.mp hc
  cases found with
  | none =>
    obtain ⟨indent, hindent, rfl⟩ := eq_of_additionOf hc
    exact h.insert hs hindent hname hstep
  | some p =>
    obtain rfl := Except.ok.inj hc
    exact h.rewrite hstep

theorem Tracked.layoutWriting (h : d.Tracked) {s : Subject} (hs : s ∈ d.registry.subjects)
    (hkind : s.kind = .input) {new : Layout} {cs : List Change}
    (hcs : d.layoutWritingOf s.id s.handle new = .ok cs) (hfollows : d.Follows cs d') :
    d'.Tracked := by
  simp only [layoutWritingOf] at hcs
  split at hcs
  · next hnew =>
    split at hcs
    · exact h.of_nil hcs hfollows
    · obtain ⟨c, hc, hcs⟩ := Checked.bind_eq_ok.mp hcs
      obtain ⟨indent, hindent, rfl⟩ := eq_of_additionOf hc
      obtain rfl := Except.ok.inj hcs
      subst hnew
      exact h.insertSprite hs hkind hindent hfollows
  · next hnew =>
    split at hcs
    · exact h.of_nil hcs hfollows
    · obtain ⟨c, hc, hcs⟩ := Checked.bind_eq_ok.mp hcs
      obtain rfl := Except.ok.inj hcs
      exact h.writing hs (Layout.isProperty_token hnew) hc hfollows.step_of_single.2

theorem Tracked.layoutReplacement (h : d.Tracked) {s : Subject} (hs : s ∈ d.registry.subjects)
    (hkind : s.kind = .input) {current new : Layout} {cs : List Change}
    (hcs : d.layoutReplacementOf s.id s.handle current new = .ok cs)
    (hfollows : d.Follows cs d') : d'.Tracked := by
  obtain ⟨writing, hwriting, hcs⟩ := Checked.bind_eq_ok.mp hcs
  split at hcs
  · obtain ⟨written, hwritten, hcs⟩ := Checked.bind_eq_ok.mp hcs
    obtain ⟨deletion, hdeletion, hcs⟩ := Checked.bind_eq_ok.mp hcs
    obtain rfl := Except.ok.inj hcs
    obtain ⟨d₁, hfirst, hrest⟩ := hfollows.exists_of_append
    obtain rfl : d₁ = written := Except.ok.inj (hfirst.changeAll_eq.symm.trans hwritten)
    have hnames : current.token ≠ SubjectKind.sheet.token ∧
        current.token ≠ SubjectKind.input.token := by
      cases current <;> decide
    exact (h.layoutWriting hs hkind hwriting hfirst).deletion hnames.1 hnames.2 hdeletion hrest
  · obtain rfl := Except.ok.inj hcs
    exact h.layoutWriting hs hkind hwriting hfollows

end Document

/-- Whether an edit leaves the lines of subjects to the edits of subjects, and the sheets alone. -/
def Edit.Tame (d : Document) : Edit → Prop
  | .writeProperty _ name _ | .deleteProperty _ name => IsProperty name
  | .deleteSubject s => d.registry.kind? s ≠ some .sheet
  | .deleteBlock _ | .writeSubject _ _ | .renameSprite _ _ | .setLayout _ _ => True

instance (d : Document) : (e : Edit) → Decidable (e.Tame d)
  | .writeProperty _ name _ => inferInstanceAs (Decidable (IsProperty name))
  | .deleteProperty _ name => inferInstanceAs (Decidable (IsProperty name))
  | .deleteSubject s => inferInstanceAs (Decidable (d.registry.kind? s ≠ some .sheet))
  | .deleteBlock _ | .writeSubject _ _ | .renameSprite _ _ | .setLayout _ _ => isTrue trivial

namespace Document

variable {d d' : Document}

theorem Tracked.changes (h : d.Tracked) {e : Edit} (he : e.Tame d) {cs : List Change}
    (hcs : d.changesOf e = .ok cs) (hfollows : d.Follows cs d') : d'.Tracked := by
  cases e with
  | writeProperty s name values =>
    rw [changesOf] at hcs
    cases hs : d.registry.handle? s with
    | none =>
      simp only [hs] at hcs
      exact h.of_nil hcs hfollows
    | some handle =>
      obtain ⟨subject, hmem, -, rfl⟩ := Registry.exists_of_handle? hs
      simp only [hs] at hcs
      obtain ⟨c, hc, hcs⟩ := Checked.bind_eq_ok.mp hcs
      obtain rfl := Except.ok.inj hcs
      exact h.writing hmem he hc hfollows.step_of_single.2
  | deleteProperty s name => exact h.deletion (he .sheet) (he .input) hcs hfollows
  | deleteBlock s => exact (h.clearing hcs hfollows).1
  | deleteSubject s =>
    rw [changesOf] at hcs
    cases hs : d.registry.line? s with
    | none =>
      simp only [hs] at hcs
      exact h.of_nil hcs hfollows
    | some n =>
      simp only [hs] at hcs
      obtain ⟨clearing, hclearing, hcs⟩ := Checked.bind_eq_ok.mp hcs
      obtain rfl := Except.ok.inj hcs
      exact h.subjectDeletion hs he hclearing hfollows
  | writeSubject s values =>
    rw [changesOf] at hcs
    split at hcs
    · exact h.of_nil hcs hfollows
    · obtain rfl := Except.ok.inj hcs
      exact h.rewrite hfollows.step_of_single.2
  | renameSprite s name =>
    rw [changesOf] at hcs
    split at hcs
    · exact h.of_nil hcs hfollows
    · obtain rfl := Except.ok.inj hcs
      exact h.rewrite hfollows.step_of_single.2
  | setLayout input new =>
    rw [changesOf] at hcs
    cases hs : d.registry.find? input with
    | none =>
      simp only [hs] at hcs
      exact h.of_nil hcs hfollows
    | some s =>
      obtain ⟨hmem, rfl⟩ := Registry.mem_of_find? hs
      simp only [hs] at hcs
      split at hcs
      · next hkind =>
        obtain ⟨current, -, hcs⟩ := Checked.bind_eq_ok.mp hcs
        split at hcs
        · exact h.of_nil hcs hfollows
        · exact h.layoutReplacement hmem hkind hcs hfollows
      · exact h.of_nil hcs hfollows

/-- Whether each of some edits is tame when its turn comes. -/
def TameAll : Document → List Edit → Prop
  | _, [] => True
  | d, e :: es => e.Tame d ∧ ∀ p, d.perform e = .ok p → TameAll p.1 es

instance decidableTameAll : (d : Document) → (es : List Edit) → Decidable (d.TameAll es)
  | _, [] => isTrue trivial
  | d, e :: es =>
    match h : d.perform e with
    | .ok p =>
      have := decidableTameAll p.1 es
      decidable_of_iff (e.Tame d ∧ p.1.TameAll es) (by simp [TameAll, h])
    | .error _ => decidable_of_iff (e.Tame d) (by simp [TameAll, h])

theorem Tracked.exists_performAll (h : d.Tracked) {es : List Edit} (hes : d.TameAll es) :
    ∃ d', d.performAll es = .ok d' ∧ d'.Tracked := by
  induction es generalizing d with
  | nil => exact ⟨d, rfl, h⟩
  | cons e es ih =>
    obtain ⟨he, hrest⟩ := hes
    obtain ⟨cs, d₁, answer, hperform, hcs, hfollows⟩ := h.valid.exists_perform e
    obtain ⟨d', hd', htracked⟩ := ih (h.changes he hcs hfollows) (hrest _ hperform)
    refine ⟨d', ?_, htracked⟩
    rw [performAll_cons, hperform, Checked.map_ok, Checked.ok_bind, hd']

/-- Whether the line of every sprite belongs to the input of the sprite. -/
def Encloses (d : Document) : Prop :=
  ∀ s ∈ d.registry.subjects, s.kind = .sprite → ∀ h ∈ s.parent.bind d.registry.handle?,
    ∀ n ∈ s.handle.line?, d.BlockHas h n

instance (d : Document) : Decidable d.Encloses :=
  inferInstanceAs (Decidable (∀ s ∈ d.registry.subjects, s.kind = .sprite →
    ∀ h ∈ s.parent.bind d.registry.handle?, ∀ n ∈ s.handle.line?, d.BlockHas h n))

end Document

/-- Whether the line of a number stands like this with respect to an input, if there is one. -/
def Enclosure.IsOf (d : Document) (n : Nat) (input : Option SubjectId) : Enclosure → Prop
  | unopened => True
  | inside level => ∃ p i l, input = some p ∧ d.registry.handle? p = some (.line i) ∧
      d.lines[i]? = some l ∧ l.level = level ∧ i < n
  | outside => ∃ p i l j m, input = some p ∧ d.registry.handle? p = some (.line i) ∧
      d.lines[i]? = some l ∧ i < j ∧ j < n ∧ d.lines[j]? = some m ∧ m.closes l.level = true

section Reading

variable {d : Document} {ls : List Line} {n : Nat} {σ τ : Scope} {input : Option SubjectId}
  {e : Enclosure} {ss : List Subject}

theorem Enclosure.IsOf.after (h : e.IsOf d n input) {l : Line} (hl : d.lines[n]? = some l)
    (hne : l.definition ≠ SubjectKind.input.token) : (e.after l).IsOf d (n + 1) input := by
  cases e with
  | unopened =>
    rw [Enclosure.after, if_neg hne]
    trivial
  | outside =>
    rw [Enclosure.after_outside hne]
    obtain ⟨p, i, m, j, m', hp, hi, hm, hij, hj, hm', hcloses⟩ := h
    exact ⟨p, i, m, j, m', hp, hi, hm, hij, Nat.lt_succ_of_lt hj, hm', hcloses⟩
  | inside level =>
    obtain ⟨p, i, m, hp, hi, hm, rfl, hin⟩ := h
    rw [Enclosure.after_inside hne]
    split
    · next hcloses => exact ⟨p, i, m, n, l, hp, hi, hm, hin, Nat.lt_succ_self n, hl, hcloses⟩
    · exact ⟨p, i, m, hp, hi, hm, rfl, Nat.lt_succ_of_lt hin⟩

theorem Document.BlockHas.not_closes {i k : Nat} (h : d.BlockHas (.line i) k) {l m : Line}
    (hl : d.lines[i]? = some l) {j : Nat} (hij : i < j) (hjk : j ≤ k) (hm : d.lines[j]? = some m) :
    m.closes l.level = false := by
  obtain ⟨block, hblock, -, hk⟩ := h
  rw [Document.block_eq hl] at hblock
  obtain rfl := Except.ok.inj hblock
  dsimp only at hk
  obtain ⟨rest, hrest⟩ := prefix_blockBelow l.level (d.lines.drop (i + 1))
  have hget : (blockBelow l.level (d.lines.drop (i + 1)))[j - (i + 1)]? = some m := by
    rw [← List.getElem?_append_left (by omega), hrest, List.getElem?_drop, ← hm]
    congr 1
    omega
  exact closes_of_mem_blockBelow (List.mem_of_getElem? hget)

theorem Scans.enclosed (h : Scans n σ ls ss τ) (hls : d.lines.drop n = ls)
    (hhandles : ∀ s ∈ ss, d.registry.handle? s.id = some s.handle) (he : e.IsOf d n σ.input)
    (hblocks : ∀ s ∈ ss, s.kind = .sprite → ∀ h ∈ s.parent.bind d.registry.handle?,
      ∀ n ∈ s.handle.line?, d.BlockHas h n) : Enclosed e ls := by
  induction h generalizing e with
  | nil => trivial
  | @subject n σ τ l ls ss kind id hl hrest ih =>
    obtain ⟨hget, hdrop⟩ := getElem?_of_drop_eq_cons hls
    have hdef := (Scope.suits_of_introduced? hl id).1
    obtain ⟨hfirst, hhandles'⟩ := List.forall_mem_cons.mp hhandles
    obtain ⟨hblock, hblocks'⟩ := List.forall_mem_cons.mp hblocks
    cases kind with
    | input =>
      have hafter : e.after l = .inside l.level := Enclosure.after_of_input hdef
      rw [Enclosed, hafter]
      refine ⟨fun _ => by simp, ih hdrop hhandles' ?_ hblocks'⟩
      exact ⟨id, n, l, rfl, hfirst, hget, rfl, Nat.lt_succ_self n⟩
    | sheet =>
      have hafter := he.after hget (by simp [hdef])
      exact ⟨fun hsprite => by simp [hdef] at hsprite, ih hdrop hhandles' hafter hblocks'⟩
    | sprite =>
      have hafter := he.after hget (by simp [hdef])
      refine ⟨fun _ houtside => ?_, ih hdrop hhandles' hafter hblocks'⟩
      rw [houtside] at hafter
      obtain ⟨p, i, m, j, m', hp, hi, hm, hij, hj, hm', hcloses⟩ := hafter
      have hin := hblock rfl (.line i) (by simp [Scope.owner?, hp, hi]) n rfl
      simp [hin.not_closes hm hij (Nat.le_of_lt_succ hj) hm'] at hcloses
  | @other n σ τ l ls ss hl hrest ih =>
    obtain ⟨hget, hdrop⟩ := getElem?_of_drop_eq_cons hls
    have hnone : ∀ kind, σ.introduced? l ≠ some kind := by simp [hl]
    have hinput : l.definition ≠ SubjectKind.input.token := fun hdef =>
      hnone .input (Scope.introduced?_eq_some_iff.mpr ⟨hdef, by simp, by simp⟩)
    have hafter := he.after hget hinput
    refine ⟨fun hsprite houtside => ?_, ih hdrop hhandles hafter hblocks⟩
    rw [houtside] at hafter
    obtain ⟨p, i, m, j, m', hp, -⟩ := hafter
    exact hnone .sprite (Scope.introduced?_eq_some_iff.mpr ⟨hsprite, by simp, by simp [hp]⟩)

end Reading

namespace Document

variable {d : Document}

theorem Encloses.enclosed (he : d.Encloses) (hc : d.registry.Coherent d.lines)
    (hs : d.registry.Scanned d.lines) : Enclosed .unopened d.lines := by
  obtain ⟨root, ss, τ, hsubjects, -, hscan⟩ := hs
  have hmem : ∀ s ∈ ss, s ∈ d.registry.subjects :=
    fun s hs => hsubjects ▸ List.mem_append_right root hs
  exact hscan.enclosed rfl (fun s hs => Registry.handle?_of_mem hc.nodup (hmem s hs)) trivial
    fun s hs => he s (hmem s hs)

theorem tracked_parse (source : Text) {options : Options} (ho : options.Nests)
    (he : (parse source options).Encloses) : (parse source options).Tracked := by
  have hc : (parse source options).registry.Coherent (parse source options).lines :=
    Registry.coherent_ofLines _
  have hs : (parse source options).registry.Scanned (parse source options).lines :=
    Registry.scanned_ofLines _
  exact ⟨valid_parse source ho.toIndents, ho, hc, hs, he.enclosed hc hs⟩

/-- After any tame edits of a document in which every sprite stands in the block of its input, the
registry says what a registry says that is built from the lines. The edits stop only if the counter
of subjects runs over, and building the registry anew does not need more numbers; as long as they do
not stop, a counter that starts again at zero does not either. -/
theorem run_view_ofLines (source : Text) {options : Options} (ho : options.Nests)
    (he : (parse source options).Encloses) {es : List Edit}
    (hes : (parse source options).TameAll es) :
    (∃ d, (parse source options).performAll es = .ok d ∧ run source options es = d.numbered) ∧
    ∀ d, run source options es = .ok d →
      (Registry.ofLines d.lines).view = d.registry.view ∧
      (Registry.ofLines d.lines).IsNumbered ∧
      (parse source options).applyAllWrapping es = .ok d := by
  obtain ⟨d, hd, h⟩ := (tracked_parse source ho he).exists_performAll hes
  have hrun := run_eq_numbered ho.toIndents hd
  refine ⟨⟨d, hd, hrun⟩, fun d₁ hd₁ => ?_⟩
  obtain ⟨hnumbered, rfl⟩ := numbered_eq_ok_iff.mp (hrun.symm.trans hd₁)
  have hids : ((Registry.ofLines d.lines).subjects.map Subject.id).Nodup := by
    rw [Registry.ofLines_map_id]
    exact List.nodup_range
  have hview := (Registry.scanned_ofLines d.lines).view_eq h.scanned hids h.coherent.nodup
  have hlength : (Registry.ofLines d.lines).subjects.length = d.registry.subjects.length := by
    simpa [Registry.view] using congrArg List.length hview
  exact ⟨hview, (hlength.trans_le h.coherent.length_le).trans hnumbered,
    applyAllWrapping_of_run hd₁⟩

/-- An input is deleted with its sprite and the blank line after it, another one is cleared of an
input in its block, and gets a sprite of its own. -/
theorem run_view_ofLines_nested_input :
    let source := "input a\n  sprite b\n\ninput c\n  grid 8 8\n  input d\n    sprite e".toList
    let es : List Edit := [.writeProperty 3 "trim".toList [], .deleteSubject 1, .deleteBlock 3,
      .setLayout 3 .grid, .setLayout 3 .sprite]
    ({} : Options).Nests ∧ (parse source).Encloses ∧ (parse source).TameAll es ∧
      ∃ d, run source {} es = .ok d ∧ (Registry.ofLines d.lines).view = d.registry.view := by
  intro source es
  have he : (parse source).Encloses := by decide
  have hes : (parse source).TameAll es := by decide
  have hok : (run source {} es).isOk = true := by decide
  obtain ⟨d, hd⟩ := Checked.exists_of_isOk hok
  obtain ⟨-, hfacts⟩ := run_view_ofLines source Options.nests_default he hes
  exact ⟨Options.nests_default, he, hes, d, hd, (hfacts d hd).1⟩

end Document
end SpriteConfig

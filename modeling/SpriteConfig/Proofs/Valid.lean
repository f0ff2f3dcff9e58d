import SpriteConfig.Proofs.Change
import SpriteConfig.Proofs.Lookup
import SpriteConfig.Proofs.Scan
/-!
# Valid documents

In a valid document the level and the definition of every line are found in its text, and every
subject stands on a line that introduces one of its kind. A document is valid when it has been read,
changes keep it valid, and no edit of a valid document fails.
-/
namespace SpriteConfig

/-- Whether new lines are indented by spaces and tabs only. -/
structure Options.Indents (o : Options) : Prop where
  indentUnit : o.indentUnit.IsIndentation
  tabIndentUnit : o.tabIndentUnit.IsIndentation

theorem Options.indents_default : ({} : Options).Indents := ⟨by decide, by decide⟩

namespace Document

/-- Whether the parts of the lines are where they should be, and the subjects on their lines. -/
structure Valid (d : Document) : Prop where
  shaped : ∀ l ∈ d.lines, l.Shaped
  standing : d.registry.Stands d.lines Registry.Introduces
  options : d.options.Indents

variable {d d' : Document}

theorem Valid.inside (hv : d.Valid) {s : Subject} (hs : s ∈ d.registry.subjects) :
    s.handle.Inside d := by
  intro n hn
  obtain ⟨l, hl, -⟩ := hv.standing s hs n hn
  exact (List.getElem?_eq_some_iff.mp hl).1

theorem Valid.shaped_of_getElem? (hv : d.Valid) {n : Nat} {l : Line} (hl : d.lines[n]? = some l) :
    l.Shaped :=
  hv.shaped l (List.mem_of_getElem? hl)

theorem Valid.step (hv : d.Valid) {c : Change} (hfits : c.Fits d) (hstep : d.Step c d') :
    d'.Valid := by
  have hset : ∀ {l l' : Line} {values}, l ∈ d.lines → l.setParameters values = .ok l' →
      l'.Shaped ∧ l'.definition = l.definition := by
    intro l l' values hl hset
    obtain ⟨m, hm, hshaped, hdef⟩ := (hv.shaped l hl).exists_setParameters values
    rw [hset, Except.ok.injEq] at hm
    exact hm ▸ ⟨hshaped, hdef⟩
  have hshaped : ∀ l ∈ d'.lines, l.Shaped := by
    refine hstep.forall_lines hv.shaped ?_ fun _ hl h => (hset hl h).1
    rintro h indent name values rfl
    exact Line.shaped_make hfits name values
  cases hstep with
  | insert hle => exact ⟨hshaped, hv.standing.insert hle _, hv.options⟩
  | rewrite hl hwrite =>
    have hdef := (hset (List.mem_of_getElem? hl) hwrite).2
    exact ⟨hshaped, hv.standing.set hl fun _ _ h => hdef.trans h, hv.options⟩
  | delete hle hstop => exact ⟨hshaped, hv.standing.delete hle hstop, hv.options⟩
  | register hlt =>
    obtain ⟨⟨l, hl, hdef⟩, -⟩ := hfits
    exact ⟨hshaped, hv.standing.add hl hdef _, hv.options⟩

theorem Valid.follows (hv : d.Valid) {cs : List Change} (h : d.Follows cs d') : d'.Valid :=
  h.preserves (fun hv hfits _ hstep => hv.step hfits hstep) hv fun _ _ => trivial

theorem Valid.exists_indentBelow (hv : d.Valid) {h : Handle} (hh : h.Inside d) :
    ∃ indent, d.indentBelow h = .ok indent ∧ indent.IsIndentation := by
  cases h with
  | root => exact ⟨[], rfl, by simp [Text.IsIndentation]⟩
  | line n =>
    have hl := List.getElem?_eq_getElem (hh n rfl)
    rw [indentBelow, block_eq hl, Checked.ok_bind]
    dsimp only
    split
    · next child _ => exact ⟨_, rfl, child.isIndentation_indent⟩
    · refine ⟨_, by rw [line_eq hl]; rfl, ?_⟩
      intro c hc
      rcases List.mem_append.mp hc with hc | hc
      · exact Line.isIndentation_indent _ c hc
      · split at hc
        · exact hv.options.tabIndentUnit c hc
        · exact hv.options.indentUnit c hc

theorem Valid.exists_additionOf (hv : d.Valid) {h : Handle} (hh : h.Inside d) (name : Text)
    (values : List Text) :
    ∃ indent, d.additionOf h name values = .ok (.insert h indent name values) ∧
      indent.IsIndentation := by
  obtain ⟨indent, hindent, hi⟩ := hv.exists_indentBelow hh
  exact ⟨indent, by rw [additionOf, hindent]; rfl, hi⟩

theorem Valid.exists_writingOf (hv : d.Valid) {h : Handle} (hh : h.Inside d) (name : Text)
    (values : List Text) :
    ∃ c d', d.writingOf h name values = .ok c ∧ c.Fits d ∧ d.Step c d' := by
  obtain ⟨found, hfound, hat⟩ := exists_findDirect? hh name
  rw [writingOf, hfound, Checked.ok_bind]
  cases found with
  | none =>
    obtain ⟨indent, hadd, hi⟩ := hv.exists_additionOf hh name values
    exact ⟨_, _, hadd, hi, .insert hh.next_le⟩
  | some p =>
    obtain ⟨hl, -, -⟩ := hat p.1 p.2 rfl
    obtain ⟨l', hset, -, -⟩ := (hv.shaped_of_getElem? hl).exists_setParameters values
    exact ⟨_, _, rfl, trivial, .rewrite hl hset⟩

theorem Valid.exists_directLine? (hv : d.Valid) (s : SubjectId) (name : Text) :
    ∃ found, d.directLine? s name = .ok found ∧
      ∀ l n, found = some (l, n) →
        d.lines[n]? = some l ∧ l.isDefinition = true ∧ l.definition = name := by
  rw [directLine?]
  cases hs : d.registry.handle? s with
  | none => exact ⟨none, rfl, by simp⟩
  | some h =>
    obtain ⟨subject, hmem, -, rfl⟩ := Registry.exists_of_handle? hs
    exact exists_findDirect? (hv.inside hmem) name

theorem Valid.exists_commonLine? (hv : d.Valid) (s : SubjectId) (name : Text) :
    ∃ found, d.commonLine? s name = .ok found ∧
      ∀ l n, found = some (l, n) →
        d.lines[n]? = some l ∧ l.isDefinition = true ∧ l.definition = name := by
  rw [commonLine?]
  cases hs : d.registry.handle? s with
  | none => exact ⟨none, rfl, by simp⟩
  | some h =>
    obtain ⟨subject, hmem, -, rfl⟩ := Registry.exists_of_handle? hs
    exact exists_findCommon? (hv.inside hmem) name

theorem Valid.exists_deletionOf (hv : d.Valid) (s : SubjectId) (name : Text) :
    ∃ cs d', d.deletionOf s name = .ok cs ∧ d.Follows cs d' := by
  obtain ⟨found, hfound, hat⟩ := hv.exists_directLine? s name
  rw [deletionOf, hfound, Checked.ok_bind]
  cases found with
  | none => exact ⟨[], d, rfl, .nil d⟩
  | some p =>
    obtain ⟨hl, -, -⟩ := hat p.1 p.2 rfl
    have hlt := (List.getElem?_eq_some_iff.mp hl).1
    exact ⟨_, _, rfl, .single trivial (.delete (Nat.le_succ _) hlt)⟩

theorem withBlankLine_le (d : Document) {stop : Nat} (h : stop ≤ d.lines.length) :
    stop ≤ d.withBlankLine stop ∧ d.withBlankLine stop ≤ d.lines.length := by
  rw [withBlankLine]
  split
  · next hblank =>
    cases hget : d.lines[stop]? with
    | none => simp [hget] at hblank
    | some l =>
      have hlt := (List.getElem?_eq_some_iff.mp hget).1
      exact ⟨Nat.le_succ stop, hlt⟩
  · exact ⟨Nat.le_refl stop, h⟩

theorem clearingOf_eq_nil {s : SubjectId} (h : d.registry.line? s = none) :
    d.clearingOf s = .ok [] := by
  rw [clearingOf]
  cases hs : d.registry.handle? s with
  | none => rfl
  | some handle =>
    cases handle with
    | root => rfl
    | line n => simp [Registry.line?, hs, Handle.line?] at h

theorem clearingOf_eq {s : SubjectId} {n : Nat} {l : Line} (hn : d.registry.line? s = some n)
    (hl : d.lines[n]? = some l) :
    d.clearingOf s =
      let stop := d.withBlankLine (n + 1 + (blockBelow l.level (d.lines.drop (n + 1))).length)
      .ok (if n + 1 = stop then [] else [.delete (n + 1) stop]) := by
  rw [clearingOf, Registry.handle?_of_line? hn]
  dsimp only
  rw [block_eq hl]
  rfl

theorem Valid.exists_line (hv : d.Valid) {s : SubjectId} {n : Nat}
    (hn : d.registry.line? s = some n) :
    ∃ subject l, d.registry.find? s = some subject ∧ d.lines[n]? = some l ∧
      l.definition = subject.kind.token := by
  obtain ⟨subject, hfind, hh⟩ := Option.map_eq_some_iff.mp (Registry.handle?_of_line? hn)
  obtain ⟨l, hl, hdef⟩ := hv.standing subject (Registry.mem_of_find? hfind).1 n hh
  exact ⟨subject, l, hfind, hl, hdef⟩

theorem Valid.exists_clearingOf (hv : d.Valid) (s : SubjectId) :
    ∃ cs d', d.clearingOf s = .ok cs ∧ d.Follows cs d' ∧
      ∀ n, d.registry.line? s = some n → n < d'.lines.length := by
  cases hn : d.registry.line? s with
  | none => exact ⟨[], d, clearingOf_eq_nil hn, .nil d, by simp⟩
  | some n =>
    obtain ⟨subject, l, -, hl, -⟩ := hv.exists_line hn
    have hlt := (List.getElem?_eq_some_iff.mp hl).1
    have hblock := (prefix_blockBelow l.level (d.lines.drop (n + 1))).length_le
    rw [clearingOf_eq hn hl]
    rw [List.length_drop] at hblock
    generalize (blockBelow l.level (d.lines.drop (n + 1))).length = size at hblock ⊢
    have hend : n + 1 + size ≤ d.lines.length := by omega
    obtain ⟨hle, hstop⟩ := d.withBlankLine_le hend
    dsimp only
    split
    · exact ⟨[], d, rfl, .nil d, fun m hm => Option.some.inj hm ▸ hlt⟩
    · refine ⟨_, _, rfl, .single trivial (.delete (by omega) hstop), ?_⟩
      intro m hm
      obtain rfl := Option.some.inj hm
      simp only [List.length_append, List.length_take]
      omega

theorem Valid.exists_layout (hv : d.Valid) (s : SubjectId) : ∃ layout, d.layout s = .ok layout := by
  rw [layout]
  cases hs : d.registry.handle? s with
  | none => exact ⟨.sprite, rfl⟩
  | some h =>
    obtain ⟨subject, hmem, -, rfl⟩ := Registry.exists_of_handle? hs
    obtain ⟨direct, hdirect, -⟩ := exists_directAt (hv.inside hmem)
    obtain ⟨common, hcommon, -⟩ := exists_commonAt (hv.inside hmem)
    simp only [hdirect, Checked.ok_bind]
    split
    · exact ⟨_, rfl⟩
    · exact ⟨_, by rw [hcommon, Checked.ok_bind]; rfl⟩

theorem Valid.exists_layoutWritingOf (hv : d.Valid) {s : Subject} (hs : s ∈ d.registry.subjects)
    (hkind : s.kind = .input) (new : Layout) :
    ∃ cs d', d.layoutWritingOf s.id s.handle new = .ok cs ∧ d.Follows cs d' := by
  have hh := hv.inside hs
  simp only [layoutWritingOf]
  split
  · next hnew =>
    split
    · exact ⟨[], d, rfl, .nil d⟩
    · subst hnew
      obtain ⟨indent, hadd, hi⟩ := hv.exists_additionOf hh Layout.sprite.token
        (Layout.sprite.initialParameters d.options)
      have hinsert : d.Step (.insert s.handle indent Layout.sprite.token
          (Layout.sprite.initialParameters d.options)) _ := .insert hh.next_le
      have hfits := hinsert.fits_register hs hkind
      obtain ⟨l, hl, -⟩ := hfits.1
      have hlt := (List.getElem?_eq_some_iff.mp hl).1
      exact ⟨[.insert s.handle indent Layout.sprite.token (Layout.sprite.initialParameters d.options),
          .register s.handle.next s.id], _, by rw [hadd]; rfl,
        .cons hi hinsert (.single hfits (.register hlt))⟩
  · split
    · exact ⟨[], d, rfl, .nil d⟩
    · obtain ⟨c, d', hwrite, hfits, hstep⟩ :=
        hv.exists_writingOf hh new.token (new.initialParameters d.options)
      exact ⟨_, _, by rw [hwrite]; rfl, .single hfits hstep⟩

theorem Valid.exists_layoutReplacementOf (hv : d.Valid) {s : Subject}
    (hs : s ∈ d.registry.subjects) (hkind : s.kind = .input) (current new : Layout) :
    ∃ cs d', d.layoutReplacementOf s.id s.handle current new = .ok cs ∧ d.Follows cs d' := by
  obtain ⟨writing, written, hwriting, hwritten⟩ := hv.exists_layoutWritingOf hs hkind new
  rw [layoutReplacementOf, hwriting, Checked.ok_bind]
  split
  · obtain ⟨deletion, d', hdeletion, hfollows⟩ :=
      (hv.follows hwritten).exists_deletionOf s.id current.token
    refine ⟨writing ++ deletion, d', ?_, hwritten.append hfollows⟩
    rw [hwritten.changeAll_eq, Checked.ok_bind, hdeletion]
    rfl
  · exact ⟨writing, written, rfl, hwritten⟩

theorem Valid.exists_changesOf (hv : d.Valid) (e : Edit) :
    ∃ cs d', d.changesOf e = .ok cs ∧ d.Follows cs d' := by
  have hrewrite : ∀ (s : SubjectId) (n : Nat) (values : List Text), d.registry.line? s = some n →
      ∃ d', d.Follows [.rewrite n values] d' := by
    intro s n values hn
    obtain ⟨subject, l, -, hl, -⟩ := hv.exists_line hn
    obtain ⟨l', hset, -, -⟩ := (hv.shaped_of_getElem? hl).exists_setParameters values
    exact ⟨_, .single trivial (.rewrite hl hset)⟩
  cases e with
  | writeProperty s name values =>
    rw [changesOf]
    cases hs : d.registry.handle? s with
    | none => exact ⟨[], d, rfl, .nil d⟩
    | some h =>
      obtain ⟨subject, hmem, -, rfl⟩ := Registry.exists_of_handle? hs
      obtain ⟨c, d', hwrite, hfits, hstep⟩ := hv.exists_writingOf (hv.inside hmem) name values
      exact ⟨_, _, by simp only [hwrite]; rfl, .single hfits hstep⟩
  | deleteProperty s name => exact hv.exists_deletionOf s name
  | deleteBlock s =>
    obtain ⟨cs, d', hcs, hfollows, -⟩ := hv.exists_clearingOf s
    exact ⟨cs, d', hcs, hfollows⟩
  | deleteSubject s =>
    rw [changesOf]
    cases hs : d.registry.line? s with
    | none => exact ⟨[], d, rfl, .nil d⟩
    | some n =>
      obtain ⟨cs, d', hcs, hfollows, hleft⟩ := hv.exists_clearingOf s
      have hown : d'.Follows [.delete n (n + 1)] _ :=
        .single trivial (.delete (Nat.le_succ n) (hleft n hs))
      exact ⟨cs ++ [.delete n (n + 1)], _, by simp only [hcs]; rfl, hfollows.append hown⟩
  | writeSubject s values =>
    rw [changesOf]
    cases hs : d.registry.line? s with
    | none => exact ⟨[], d, rfl, .nil d⟩
    | some n =>
      obtain ⟨d', hfollows⟩ := hrewrite s n values hs
      exact ⟨_, _, rfl, hfollows⟩
  | renameSprite s name =>
    rw [changesOf]
    cases hs : d.registry.line? s with
    | none => exact ⟨[], d, rfl, .nil d⟩
    | some n =>
      obtain ⟨d', hfollows⟩ := hrewrite s n [name] hs
      exact ⟨_, _, rfl, hfollows⟩
  | setLayout input new =>
    rw [changesOf]
    cases hs : d.registry.find? input with
    | none => exact ⟨[], d, rfl, .nil d⟩
    | some s =>
      obtain ⟨hmem, rfl⟩ := Registry.mem_of_find? hs
      dsimp only
      split
      · next hkind =>
        obtain ⟨current, hcurrent⟩ := hv.exists_layout s.id
        rw [hcurrent, Checked.ok_bind]
        split
        · exact ⟨[], d, rfl, .nil d⟩
        · exact hv.exists_layoutReplacementOf hmem hkind _ _
      · exact ⟨[], d, rfl, .nil d⟩

/-- No edit of a valid document fails, and it is what its changes are. -/
theorem Valid.exists_perform (hv : d.Valid) (e : Edit) :
    ∃ cs d' answer, d.perform e = .ok (d', answer) ∧ d.changesOf e = .ok cs ∧ d.Follows cs d' := by
  obtain ⟨cs, d', hcs, hfollows⟩ := hv.exists_changesOf e
  have h := perform_eq_changeAll d e
  rw [hcs, Checked.ok_bind, hfollows.changeAll_eq] at h
  cases hp : d.perform e with
  | error f => simp [hp] at h
  | ok p =>
    simp only [hp, Checked.map_ok, Except.ok.injEq] at h
    exact ⟨cs, d', p.2, by rw [← h], hcs, hfollows⟩

theorem valid_parse (source : Text) {options : Options} (h : options.Indents) :
    (parse source options).Valid := by
  refine ⟨fun l hl => ?_, Registry.stands_ofLines _, h⟩
  exact shaped_of_mem_readLines hl

end Document
end SpriteConfig

import SpriteConfig.Proofs.Coherent
/-!
# Edits that succeed

A new line that is indented by more than spaces and tabs may not be read back, and then a later edit
of it fails. Edits that succeed keep the registry coherent, whatever the options are: a sprite is
only ever registered on a line that has just been inserted for it.
-/
namespace SpriteConfig
namespace Document

variable {d d' : Document} {cs : List Change}

private theorem not_registers_writingOf {h : Handle} {name : Text} {values : List Text} {c : Change}
    (hc : d.writingOf h name values = .ok c) : ¬ c.Registers := by
  rcases eq_of_writingOf hc with ⟨indent, rfl⟩ | ⟨_, n, -, rfl⟩
  · exact id
  · exact id

private theorem not_registers_deletionOf {s : SubjectId} {name : Text}
    (h : d.deletionOf s name = .ok cs) : ∀ c ∈ cs, ¬ c.Registers := by
  obtain ⟨found, -, h⟩ := Checked.bind_eq_ok.mp h
  cases found with
  | none => simp [← Except.ok.inj h]
  | some p => simp [← Except.ok.inj h, Change.Registers]

private theorem not_registers_clearingOf {s : SubjectId} (h : d.clearingOf s = .ok cs) :
    ∀ c ∈ cs, ¬ c.Registers := by
  rw [clearingOf] at h
  split at h
  · simp [← Except.ok.inj h]
  · simp [← Except.ok.inj h]
  · obtain ⟨block, -, h⟩ := Checked.bind_eq_ok.mp h
    rw [← Except.ok.inj h]
    split <;> simp [Change.Registers]

/-- Whether no change registers a subject, except that the first two may give an input a sprite. -/
def RegistersSprite (d : Document) (cs : List Change) : Prop :=
  (∀ c ∈ cs, ¬ c.Registers) ∨
    ∃ s ∈ d.registry.subjects, s.kind = .input ∧ ∃ indent values rest,
      cs = .insert s.handle indent Layout.sprite.token values ::
        .register s.handle.next s.id :: rest ∧ ∀ c ∈ rest, ¬ c.Registers

theorem RegistersSprite.append (h : d.RegistersSprite cs) {ds : List Change}
    (hds : ∀ c ∈ ds, ¬ c.Registers) : d.RegistersSprite (cs ++ ds) := by
  rcases h with h | ⟨s, hs, hkind, indent, values, rest, rfl, hrest⟩
  · exact .inl (List.forall_mem_append.mpr ⟨h, hds⟩)
  · have hall := List.forall_mem_append.mpr ⟨hrest, hds⟩
    exact .inr ⟨s, hs, hkind, indent, values, rest ++ ds, rfl, hall⟩

private theorem registersSprite_layoutWritingOf {s : Subject} (hs : s ∈ d.registry.subjects)
    (hkind : s.kind = .input) {new : Layout} (h : d.layoutWritingOf s.id s.handle new = .ok cs) :
    d.RegistersSprite cs := by
  simp only [layoutWritingOf] at h
  split at h
  · next hnew =>
    split at h
    · exact .inl (by simp [← Except.ok.inj h])
    · obtain ⟨c, hc, h⟩ := Checked.bind_eq_ok.mp h
      obtain ⟨indent, -, rfl⟩ := eq_of_additionOf hc
      subst hnew
      exact .inr ⟨s, hs, hkind, indent, _, [], (Except.ok.inj h).symm, by simp⟩
  · split at h
    · exact .inl (by simp [← Except.ok.inj h])
    · obtain ⟨c, hc, h⟩ := Checked.bind_eq_ok.mp h
      rw [← Except.ok.inj h]
      exact .inl (by simpa using not_registers_writingOf hc)

private theorem registersSprite_layoutReplacementOf {s : Subject} (hs : s ∈ d.registry.subjects)
    (hkind : s.kind = .input) {current new : Layout}
    (h : d.layoutReplacementOf s.id s.handle current new = .ok cs) : d.RegistersSprite cs := by
  obtain ⟨writing, hwriting, h⟩ := Checked.bind_eq_ok.mp h
  have hsprite := registersSprite_layoutWritingOf hs hkind hwriting
  split at h
  · obtain ⟨written, -, h⟩ := Checked.bind_eq_ok.mp h
    obtain ⟨deletion, hdeletion, h⟩ := Checked.bind_eq_ok.mp h
    rw [← Except.ok.inj h]
    exact hsprite.append (not_registers_deletionOf hdeletion)
  · exact Except.ok.inj h ▸ hsprite

theorem registersSprite_changesOf {e : Edit} (h : d.changesOf e = .ok cs) :
    d.RegistersSprite cs := by
  cases e with
  | writeProperty s name values =>
    rw [changesOf] at h
    split at h
    · exact .inl (by simp [← Except.ok.inj h])
    · obtain ⟨c, hc, h⟩ := Checked.bind_eq_ok.mp h
      rw [← Except.ok.inj h]
      exact .inl (by simpa using not_registers_writingOf hc)
  | deleteProperty s name => exact .inl (not_registers_deletionOf h)
  | deleteBlock s => exact .inl (not_registers_clearingOf h)
  | deleteSubject s =>
    rw [changesOf] at h
    split at h
    · exact .inl (by simp [← Except.ok.inj h])
    · obtain ⟨clearing, hclearing, h⟩ := Checked.bind_eq_ok.mp h
      rw [← Except.ok.inj h]
      refine .inl (List.forall_mem_append.mpr ⟨not_registers_clearingOf hclearing, ?_⟩)
      simp [Change.Registers]
  | writeSubject s values =>
    rw [changesOf] at h
    split at h <;> exact .inl (by simp [← Except.ok.inj h, Change.Registers])
  | renameSprite s name =>
    rw [changesOf] at h
    split at h <;> exact .inl (by simp [← Except.ok.inj h, Change.Registers])
  | setLayout input new =>
    rw [changesOf] at h
    split at h
    · exact .inl (by simp [← Except.ok.inj h])
    · next s hfind =>
      obtain ⟨hs, rfl⟩ := Registry.mem_of_find? hfind
      split at h
      · next hkind =>
        obtain ⟨current, -, h⟩ := Checked.bind_eq_ok.mp h
        split at h
        · exact .inl (by simp [← Except.ok.inj h])
        · exact registersSprite_layoutReplacementOf hs hkind h
      · exact .inl (by simp [← Except.ok.inj h])

private theorem coherent_of_changeAll (h : d.registry.Coherent d.lines)
    (hcs : ∀ c ∈ cs, ¬ c.Registers) (hd : d.changeAll cs = .ok d') :
    d'.registry.Coherent d'.lines := by
  induction cs generalizing d with
  | nil => exact Except.ok.inj hd ▸ h
  | cons c cs ih =>
    obtain ⟨hc, hcs⟩ := List.forall_mem_cons.mp hcs
    rw [changeAll_cons] at hd
    obtain ⟨d₁, hchange, hd⟩ := Checked.bind_eq_ok.mp hd
    exact ih ((step_of_change hchange).coherent h fun hregisters => absurd hregisters hc) hcs hd

theorem RegistersSprite.coherent (hcs : d.RegistersSprite cs) (h : d.registry.Coherent d.lines)
    (hd : d.changeAll cs = .ok d') : d'.registry.Coherent d'.lines := by
  rcases hcs with hcs | ⟨s, hs, hkind, indent, values, rest, rfl, hrest⟩
  · exact coherent_of_changeAll h hcs hd
  · rw [changeAll_cons] at hd
    obtain ⟨d₁, hinsert, hd⟩ := Checked.bind_eq_ok.mp hd
    rw [changeAll_cons] at hd
    obtain ⟨d₂, hregister, hd⟩ := Checked.bind_eq_ok.mp hd
    have hstep := step_of_change hinsert
    have h₁ := hstep.coherent h False.elim
    have h₂ := (step_of_change hregister).coherent h₁ fun _ => hstep.fits_register hs hkind
    exact coherent_of_changeAll h₂ hrest hd

theorem coherent_of_performAll (h : d.registry.Coherent d.lines) {es : List Edit}
    (hd : d.performAll es = .ok d') : d'.registry.Coherent d'.lines := by
  induction es generalizing d with
  | nil => exact Except.ok.inj hd ▸ h
  | cons e es ih =>
    rw [performAll_cons, perform_eq_changeAll] at hd
    obtain ⟨d₁, hperform, hd⟩ := Checked.bind_eq_ok.mp hd
    obtain ⟨cs, hcs, hperform⟩ := Checked.bind_eq_ok.mp hperform
    exact ih ((registersSprite_changesOf hcs).coherent h hperform) hd

end Document
end SpriteConfig

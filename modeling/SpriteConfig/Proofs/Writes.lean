import SpriteConfig.Proofs.Valid
/-!
# What edits write

The definitions and parameters that the changes of an edit write are the ones that the edit is
given, and those of the layouts.
-/
namespace SpriteConfig

/-- Whether the definitions that a change writes satisfy `N`, and the parameters `V`. -/
def Change.Writes (N V : Text → Prop) : Change → Prop
  | .insert _ _ name values => N name ∧ ∀ v ∈ values, V v
  | .rewrite _ values => ∀ v ∈ values, V v
  | .delete _ _ | .register _ _ => True

/-- Whether the definitions that an edit is given satisfy `N`, and the parameters `V`. -/
def Edit.Writes (N V : Text → Prop) : Edit → Prop
  | .writeProperty _ name values => N name ∧ ∀ v ∈ values, V v
  | .writeSubject _ values => ∀ v ∈ values, V v
  | .renameSprite _ name => V name
  | .deleteProperty _ _ | .deleteBlock _ | .deleteSubject _ | .setLayout _ _ => True

variable {N V N' V' : Text → Prop} {d : Document} {cs : List Change}

theorem Change.Writes.imp {c : Change} (h : c.Writes N V) (hN : ∀ t, N t → N' t)
    (hV : ∀ t, V t → V' t) : c.Writes N' V' := by
  cases c with
  | insert => exact ⟨hN _ h.1, fun v hv => hV v (h.2 v hv)⟩
  | rewrite => exact fun v hv => hV v (h v hv)
  | delete => trivial
  | register => trivial

private theorem writes_additionOf {h : Handle} {name : Text} {values : List Text} {c : Change}
    (hc : d.additionOf h name values = .ok c) (hn : N name) (hv : ∀ v ∈ values, V v) :
    c.Writes N V := by
  obtain ⟨indent, -, rfl⟩ := Document.eq_of_additionOf hc
  exact ⟨hn, hv⟩

theorem writes_writingOf {h : Handle} {name : Text} {values : List Text} {c : Change}
    (hc : d.writingOf h name values = .ok c) (hn : N name) (hv : ∀ v ∈ values, V v) :
    c.Writes N V := by
  rcases Document.eq_of_writingOf hc with ⟨indent, rfl⟩ | ⟨_, n, -, rfl⟩
  · exact ⟨hn, hv⟩
  · exact hv

private theorem writes_deletionOf {s : SubjectId} {name : Text}
    (h : d.deletionOf s name = .ok cs) : ∀ c ∈ cs, c.Writes N V := by
  obtain ⟨found, -, h⟩ := Checked.bind_eq_ok.mp h
  cases found with
  | none => simp [← Except.ok.inj h]
  | some p =>
    rw [← Except.ok.inj h]
    simp [Change.Writes]

private theorem writes_clearingOf {s : SubjectId} (h : d.clearingOf s = .ok cs) :
    ∀ c ∈ cs, c.Writes N V := by
  rw [Document.clearingOf] at h
  split at h
  · simp [← Except.ok.inj h]
  · simp [← Except.ok.inj h]
  · obtain ⟨block, -, h⟩ := Checked.bind_eq_ok.mp h
    rw [← Except.ok.inj h]
    split <;> simp [Change.Writes]

private theorem writes_layoutReplacementOf {input : SubjectId} {h : Handle} {current new : Layout}
    (hN : N new.token) (hV : ∀ n, V (Text.ofNat n))
    (hc : d.layoutReplacementOf input h current new = .ok cs) : ∀ c ∈ cs, c.Writes N V := by
  have hvalues : ∀ v ∈ new.initialParameters d.options, V v := by
    cases new <;> simp [Layout.initialParameters, hV]
  have hwriting : ∀ {ws}, d.layoutWritingOf input h new = .ok ws → ∀ c ∈ ws, c.Writes N V := by
    intro ws hw
    simp only [Document.layoutWritingOf] at hw
    split at hw
    · split at hw
      · simp [← Except.ok.inj hw]
      · obtain ⟨c, hc, hw⟩ := Checked.bind_eq_ok.mp hw
        rw [← Except.ok.inj hw]
        simpa [Change.Writes] using writes_additionOf hc hN hvalues
    · split at hw
      · simp [← Except.ok.inj hw]
      · obtain ⟨c, hc, hw⟩ := Checked.bind_eq_ok.mp hw
        rw [← Except.ok.inj hw]
        simpa using writes_writingOf hc hN hvalues
  obtain ⟨ws, hws, hc⟩ := Checked.bind_eq_ok.mp hc
  split at hc
  · obtain ⟨written, -, hc⟩ := Checked.bind_eq_ok.mp hc
    obtain ⟨deletion, hdeletion, hc⟩ := Checked.bind_eq_ok.mp hc
    rw [← Except.ok.inj hc]
    intro c hmem
    rcases List.mem_append.mp hmem with hmem | hmem
    · exact hwriting hws c hmem
    · exact writes_deletionOf hdeletion c hmem
  · rw [← Except.ok.inj hc]
    exact hwriting hws

theorem Edit.Writes.changesOf {e : Edit} (he : e.Writes N V) (hN : ∀ l : Layout, N l.token)
    (hV : ∀ n, V (Text.ofNat n)) (h : d.changesOf e = .ok cs) : ∀ c ∈ cs, c.Writes N V := by
  cases e with
  | writeProperty s name values =>
    rw [Document.changesOf] at h
    split at h
    · simp [← Except.ok.inj h]
    · obtain ⟨c, hc, h⟩ := Checked.bind_eq_ok.mp h
      rw [← Except.ok.inj h]
      simpa using writes_writingOf hc he.1 he.2
  | deleteProperty s name => exact writes_deletionOf h
  | deleteBlock s => exact writes_clearingOf h
  | deleteSubject s =>
    rw [Document.changesOf] at h
    split at h
    · simp [← Except.ok.inj h]
    · obtain ⟨clearing, hclearing, h⟩ := Checked.bind_eq_ok.mp h
      rw [← Except.ok.inj h]
      intro c hc
      rcases List.mem_append.mp hc with hc | hc
      · exact writes_clearingOf hclearing c hc
      · simp [List.mem_singleton.mp hc, Change.Writes]
  | writeSubject s values =>
    rw [Document.changesOf] at h
    split at h
    · simp [← Except.ok.inj h]
    · rw [← Except.ok.inj h]
      simpa [Change.Writes, Edit.Writes] using he
  | renameSprite s name =>
    rw [Document.changesOf] at h
    split at h
    · simp [← Except.ok.inj h]
    · rw [← Except.ok.inj h]
      simpa [Change.Writes, Edit.Writes] using he
  | setLayout input new =>
    rw [Document.changesOf] at h
    split at h
    · simp [← Except.ok.inj h]
    · split at h
      · obtain ⟨current, -, h⟩ := Checked.bind_eq_ok.mp h
        split at h
        · simp [← Except.ok.inj h]
        · exact writes_layoutReplacementOf (hN new) hV h
      · simp [← Except.ok.inj h]

theorem Document.Valid.exists_performAll (hv : d.Valid) (hN : ∀ l : Layout, N l.token)
    (hV : ∀ n, V (Text.ofNat n)) {es : List Edit} (hes : ∀ e ∈ es, e.Writes N V) :
    ∃ cs d', d.performAll es = .ok d' ∧ d.Follows cs d' ∧ ∀ c ∈ cs, c.Writes N V := by
  induction es generalizing d with
  | nil => exact ⟨[], d, rfl, .nil d, by simp⟩
  | cons e es ih =>
    obtain ⟨cs, d₁, answer, hperform, hcs, hfollows⟩ := hv.exists_perform e
    obtain ⟨cs', d', hrest, hfollows', hwrites'⟩ :=
      ih (hv.follows hfollows) fun e he => hes e (List.mem_cons_of_mem _ he)
    have hwrites := (hes e List.mem_cons_self).changesOf hN hV hcs
    refine ⟨cs ++ cs', d', ?_, hfollows.append hfollows', ?_⟩
    · rw [performAll_cons, hperform, Checked.map_ok, Checked.ok_bind, hrest]
    · exact List.forall_mem_append.mpr ⟨hwrites, hwrites'⟩

theorem Document.Valid.exists_follows (hv : d.Valid) (es : List Edit) :
    ∃ cs d', d.performAll es = .ok d' ∧ d.Follows cs d' := by
  have hwrites : ∀ e ∈ es, e.Writes (fun _ => True) fun _ => True := by
    intro e _
    cases e <;> simp [Edit.Writes]
  obtain ⟨cs, d', hperform, hfollows, -⟩ :=
    hv.exists_performAll (fun _ => trivial) (fun _ => trivial) hwrites
  exact ⟨cs, d', hperform, hfollows⟩

theorem Text.not_mem_ofNat {c : Char} (h : c.isDigit = false) (n : Nat) : c ∉ Text.ofNat n := by
  intro hc
  have hdigit := isDigit_of_mem_ofNat hc
  simp [h] at hdigit

end SpriteConfig

import SpriteConfig.Document.Numbered
import SpriteConfig.Proofs.Writes
/-!
# When the counter runs over

Every registration raises the counter of subjects by one, and nothing else changes it. So a change
stops exactly if it is a registration that has no number left, and a run of edits stops exactly if
the counter is too great in the end.
-/
namespace SpriteConfig
namespace Document

variable {d d' d₁ d₂ : Document}

theorem numbered_of_isNumbered (h : d.registry.IsNumbered) : d.numbered = .ok d := if_pos h

theorem numbered_of_not_isNumbered (h : ¬ d.registry.IsNumbered) :
    d.numbered = .error .tooManySubjects := if_neg h

theorem numbered_eq_ok_iff : d.numbered = .ok d' ↔ d.registry.IsNumbered ∧ d = d' := by
  by_cases h : d.registry.IsNumbered
  · simp [numbered_of_isNumbered h, h]
  · simp [numbered_of_not_isNumbered h, h]

theorem numbered_bind_numbered (hle : d.registry.nextId ≤ d'.registry.nextId) :
    (d.numbered >>= fun _ => d'.numbered) = d'.numbered := by
  by_cases h : d.registry.IsNumbered
  · rw [numbered_of_isNumbered h, Checked.ok_bind]
  · have h' : ¬ d'.registry.IsNumbered := fun h' => h (hle.trans h')
    rw [numbered_of_not_isNumbered h, numbered_of_not_isNumbered h', Checked.error_bind]

theorem numbered_bind (f : Document → Checked Document) :
    d.numbered >>= f = d.numbered >>= fun _ => f d := by
  by_cases h : d.registry.IsNumbered
  · simp only [numbered_of_isNumbered h, Checked.ok_bind]
  · simp only [numbered_of_not_isNumbered h, Checked.error_bind]

/-- Makes a change, for which a registration needs a number that is left. -/
def changeNumbered (d : Document) : Change → Checked Document
  | .register n input =>
    if n < d.lines.length then do
      let registry ← d.registry.register .sprite (.line n) (some input)
      return { d with registry }
    else .error (.noLine n)
  | c => d.change c

theorem Step.changeNumbered_eq (hd : d.registry.IsNumbered) {c : Change} (hstep : d.Step c d') :
    d.changeNumbered c = d'.numbered := by
  have heq := hstep.change_eq
  cases hstep with
  | insert hle =>
    rw [numbered_of_isNumbered, ← heq]
    · rfl
    · exact hd
  | rewrite hl hset =>
    rw [numbered_of_isNumbered, ← heq]
    · rfl
    · exact hd
  | delete hle hstop =>
    rw [numbered_of_isNumbered, ← heq]
    · rfl
    · exact (d.registry.nextId_deleteLines _ _).trans_le hd
  | register hlt =>
    rw [changeNumbered, if_pos hlt, Registry.register, numbered]
    split
    · next hnext => exact (if_pos hnext).symm
    · next hnext => exact (if_neg hnext).symm

theorem Step.nextId_le {c : Change} (hstep : d.Step c d') :
    d.registry.nextId ≤ d'.registry.nextId := by
  cases hstep with
  | insert hle => exact Nat.le_refl _
  | rewrite hl hset => exact Nat.le_refl _
  | delete hle hstop => exact (d.registry.nextId_deleteLines _ _).ge
  | register hlt => exact Nat.le_succ _

theorem Follows.nextId_le {cs : List Change} (h : d.Follows cs d') :
    d.registry.nextId ≤ d'.registry.nextId := by
  induction h with
  | nil d => exact Nat.le_refl _
  | cons _ hstep _ ih => exact hstep.nextId_le.trans ih

theorem apply_of_perform {e : Edit} {answer : Bool} (h : d.perform e = .ok (d', answer)) :
    Prod.fst <$> d.apply e = d'.numbered := by
  rw [apply, h, Checked.ok_bind]
  dsimp only
  by_cases hd : d'.registry.IsNumbered
  · rw [numbered_of_isNumbered hd]
    rfl
  · rw [numbered_of_not_isNumbered hd]
    rfl

theorem exists_of_apply {e : Edit} (h : Prod.fst <$> d.apply e = .ok d') :
    ∃ answer, d.perform e = .ok (d', answer) ∧ d'.registry.IsNumbered := by
  obtain ⟨p, hp, rfl⟩ := Checked.map_eq_ok.mp h
  obtain ⟨q, hq, hnumbered⟩ := Checked.bind_eq_ok.mp hp
  obtain ⟨d₁, hd₁, hpair⟩ := Checked.bind_eq_ok.mp hnumbered
  obtain ⟨hcounter, rfl⟩ := numbered_eq_ok_iff.mp hd₁
  obtain rfl := Except.ok.inj hpair
  exact ⟨q.2, hq, hcounter⟩

@[simp] theorem applyAll_nil : d.applyAll [] = .ok d := rfl

theorem applyAll_cons (e : Edit) (es : List Edit) :
    d.applyAll (e :: es) = Prod.fst <$> d.apply e >>= fun d => d.applyAll es :=
  List.foldlM_cons

theorem performAll_of_applyAll {es : List Edit} (h : d.applyAll es = .ok d') :
    d.performAll es = .ok d' := by
  induction es generalizing d with
  | nil => exact h
  | cons e es ih =>
    rw [applyAll_cons] at h
    obtain ⟨d₁, hfirst, hrest⟩ := Checked.bind_eq_ok.mp h
    obtain ⟨answer, hperform, -⟩ := exists_of_apply hfirst
    rw [performAll_cons, hperform, Checked.map_ok, Checked.ok_bind]
    exact ih hrest

theorem applyWrapping_of_perform {e : Edit} {answer : Bool} (h : d.perform e = .ok (d', answer))
    (hd' : d'.registry.IsNumbered) : d.applyWrapping e = .ok (d', answer) := by
  have hnext : d'.registry.nextId % (maxWord32 + 1) = d'.registry.nextId :=
    Nat.mod_eq_of_lt (Nat.lt_succ_of_le hd')
  rw [applyWrapping, h, Checked.ok_bind]
  dsimp only
  rw [hnext]
  rfl

/-- As long as edits do not stop, the counter does not start again. -/
theorem applyAllWrapping_of_applyAll {es : List Edit} (h : d.applyAll es = .ok d') :
    d.applyAllWrapping es = .ok d' := by
  induction es generalizing d with
  | nil => exact h
  | cons e es ih =>
    rw [applyAll_cons] at h
    obtain ⟨d₁, hfirst, hrest⟩ := Checked.bind_eq_ok.mp h
    obtain ⟨answer, hperform, hnumbered⟩ := exists_of_apply hfirst
    rw [applyAllWrapping, List.foldlM_cons, applyWrapping_of_perform hperform hnumbered]
    exact ih hrest

theorem applyAllWrapping_of_run {source : Text} {options : Options} {es : List Edit}
    (h : run source options es = .ok d) : (parse source options).applyAllWrapping es = .ok d := by
  obtain ⟨d₀, hread, hrest⟩ := Checked.bind_eq_ok.mp h
  obtain ⟨-, rfl⟩ := numbered_eq_ok_iff.mp hread
  exact applyAllWrapping_of_applyAll hrest

/-- Edits stop exactly if the counter is too great after all of them. -/
theorem Valid.numbered_bind_applyAll (hv : d.Valid) {es : List Edit}
    (h : d.performAll es = .ok d') : (d.numbered >>= fun d => d.applyAll es) = d'.numbered := by
  induction es generalizing d with
  | nil =>
    obtain rfl : d = d' := Except.ok.inj h
    exact bind_pure d.numbered
  | cons e es ih =>
    obtain ⟨cs, d₁, answer, hperform, -, hfollows⟩ := hv.exists_perform e
    rw [performAll_cons, hperform, Checked.map_ok, Checked.ok_bind] at h
    obtain ⟨cs', d₂, hrest, hfollows'⟩ := (hv.follows hfollows).exists_follows es
    obtain rfl : d₂ = d' := Except.ok.inj (hrest.symm.trans h)
    have hle := (hfollows.append hfollows').nextId_le
    calc
      (d.numbered >>= fun d => d.applyAll (e :: es))
        = d.numbered >>= fun _ => d₁.numbered >>= fun d => d.applyAll es := by
          rw [numbered_bind, applyAll_cons, apply_of_perform hperform]
      _ = d.numbered >>= fun _ => d₂.numbered := by rw [ih (hv.follows hfollows) h]
      _ = d₂.numbered := numbered_bind_numbered hle

theorem run_append (source : Text) (options : Options) (es es' : List Edit) :
    run source options (es ++ es') = run source options es >>= fun d => d.applyAll es' := by
  simp only [run, applyAll, List.foldlM_append, bind_assoc]

/-- A run of edits stops only if the counter is too great in the end. -/
theorem run_eq_numbered {source : Text} {options : Options} (ho : options.Indents) {es : List Edit}
    (h : (parse source options).performAll es = .ok d) : run source options es = d.numbered :=
  (valid_parse source ho).numbered_bind_applyAll h

end Document
end SpriteConfig

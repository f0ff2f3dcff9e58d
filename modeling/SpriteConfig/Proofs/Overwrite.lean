import SpriteConfig.Proofs.Coherent
/-!
# Writing what was written before

What is written is read, and writing it anew leaves no trace of what was written first. This holds
of the properties of a subject and of the parameters on its own line, in every document that comes
of reading and editing one.
-/
namespace SpriteConfig
namespace Document

variable {d d' : Document} {s : SubjectId} {h : Handle} {name : Text} {values : List Text}

theorem effective?_of_direct? (hdirect : d.direct? s name = .ok (some values)) :
    d.effective? s name = .ok (some values) := by
  rw [effective?, hdirect]
  rfl

theorem Orderly.exists_overwritten (ho : d.Orderly) (hs : d.registry.handle? s = some h)
    (hn : name ≠ []) (values : List Text) :
    ∃ d', d.writeProperty s name values = .ok (d', true) ∧
      d'.direct? s name = .ok (some values) ∧
      ∀ later, d'.writeProperty s name later = d.writeProperty s name later := by
  obtain ⟨c, d', l, n, hc, -, hstep, hfound, hl, hlater⟩ :=
    ho.valid.exists_written ho.nests (ho.defined hs) hn values
  have hs' := handle?_of_writingOf hs hc hstep
  refine ⟨d', writeProperty_eq_of_step hs hc hstep, direct?_eq hs' hfound hl, fun later => ?_⟩
  obtain ⟨c', d'', hc', hstep', hagain⟩ := hlater later
  have hrewriting := writingOf_of_findDirect? hfound later
  rw [writeProperty_eq_of_step hs hc' hstep', writeProperty_eq_of_step hs' hrewriting hagain]

theorem writeSubject_eq_of_step {n : Nat} (hs : d.registry.handle? s = some (.line n))
    (hstep : d.Step (.rewrite n values) d') : d.writeSubject s values = .ok (d', true) := by
  have hline : d.registry.line? s = some n := by rw [Registry.line?, hs]; rfl
  have hchange : d.changeLine n values = .ok d' := hstep.change_eq
  rw [writeSubject, hline]
  dsimp only
  rw [hchange]
  rfl

theorem ownParameters?_eq {n : Nat} (hs : d.registry.handle? s = some (.line n)) {l : Line}
    (hl : d.lines[n]? = some l) (hvalues : l.parameters = .ok values) :
    d.ownParameters? s = .ok (some values) := by
  rw [ownParameters?, ownLine?_of_line hs, hl]
  dsimp only
  rw [hvalues]
  rfl

theorem Orderly.exists_own_overwritten (ho : d.Orderly) {n : Nat}
    (hs : d.registry.handle? s = some (.line n)) (values : List Text) :
    ∃ d', d.writeSubject s values = .ok (d', true) ∧ d'.ownParameters? s = .ok (some values) ∧
      ∀ later, d'.writeSubject s later = d.writeSubject s later := by
  obtain ⟨l, hl, hd⟩ := ho.defined hs n rfl
  have hlt := (List.getElem?_eq_some_iff.mp hl).1
  have hshaped := ho.valid.shaped_of_getElem? hl
  obtain ⟨l', hset, -, -⟩ := hshaped.exists_setParameters values
  have hl' : (d.lines.set n l')[n]? = some l' := List.getElem?_set_self hlt
  have hvalues := hshaped.parameters_setParameters hd hset
  refine ⟨_, writeSubject_eq_of_step hs (.rewrite hl hset), ownParameters?_eq hs hl' hvalues,
    fun later => ?_⟩
  obtain ⟨l'', hset', -, -⟩ := hshaped.exists_setParameters later
  have hagain := (hshaped.setParameters_setParameters hset later).trans hset'
  rw [writeSubject_eq_of_step hs (.rewrite hl hset')]
  exact writeSubject_eq_of_step hs (.rewrite_of_eq hl' hagain (by rw [List.set_set]))

/-- After any edits, a property that is written is the one that a subject has, and writing it twice
is writing it once, with the later parameters. So it is with the parameters on the line of a
subject. -/
theorem performAll_overwrites (source : Text) {options : Options} (ho : options.Nests)
    (es : List Edit) {name : Text} (hn : name ≠ []) :
    ∃ d, (parse source options).performAll es = .ok d ∧
      ∀ s h, d.registry.handle? s = some h → ∀ first second,
        (∃ d', d.writeProperty s name first = .ok (d', true) ∧
          d'.direct? s name = .ok (some first) ∧ d'.effective? s name = .ok (some first) ∧
          d'.writeProperty s name second = d.writeProperty s name second) ∧
        (h ≠ .root → ∃ d', d.writeSubject s first = .ok (d', true) ∧
          d'.ownParameters? s = .ok (some first) ∧
          d'.writeSubject s second = d.writeSubject s second) := by
  obtain ⟨d, hd, horderly⟩ := (orderly_parse source ho).exists_performAll es
  refine ⟨d, hd, fun s h hs first second => ⟨?_, fun hne => ?_⟩⟩
  · obtain ⟨d', hwrite, hdirect, hagain⟩ := horderly.exists_overwritten hs hn first
    exact ⟨d', hwrite, hdirect, effective?_of_direct? hdirect, hagain second⟩
  · cases h with
    | root => exact absurd rfl hne
    | line n =>
      obtain ⟨d', hwrite, hown, hagain⟩ := horderly.exists_own_overwritten hs first
      exact ⟨d', hwrite, hown, hagain second⟩

/-- Parameters that need quotes are written over others that stand before a comment. -/
theorem performAll_overwrites_quoted :
    let name := "trim".toList
    let first := ["".toList, "x # y".toList]
    let second := ["\"a\" b".toList, "it's".toList]
    ({} : Options).Nests ∧ name ≠ [] ∧
      ∃ d, (parse "input a # own\n  trim \"#\" # kept".toList).performAll
          [.writeProperty 1 "grid".toList ["8".toList]] = .ok d ∧
        d.registry.handle? 1 = some (.line 0) ∧
        (∃ d', d.writeProperty 1 name first = .ok (d', true) ∧
          d'.direct? 1 name = .ok (some first) ∧ d'.effective? 1 name = .ok (some first) ∧
          d'.writeProperty 1 name second = d.writeProperty 1 name second) ∧
        ∃ d', d.writeSubject 1 first = .ok (d', true) ∧ d'.ownParameters? 1 = .ok (some first) ∧
          d'.writeSubject 1 second = d.writeSubject 1 second := by
  intro name first second
  have hn : name ≠ [] := by decide
  obtain ⟨d, hd, hlaws⟩ := performAll_overwrites "input a # own\n  trim \"#\" # kept".toList
    Options.nests_default [.writeProperty 1 "grid".toList ["8".toList]] hn
  have hs : d.registry.handle? 1 = some (.line 0) := by
    have hhandle : (fun d => d.registry.handle? 1) <$>
        (parse "input a # own\n  trim \"#\" # kept".toList).performAll
          [.writeProperty 1 "grid".toList ["8".toList]] = .ok (some (.line 0)) := by decide
    rw [hd] at hhandle
    exact Except.ok.inj hhandle
  obtain ⟨hproperty, hown⟩ := hlaws 1 _ hs first second
  exact ⟨Options.nests_default, hn, d, hd, hs, hproperty, hown (by decide)⟩

end Document
end SpriteConfig

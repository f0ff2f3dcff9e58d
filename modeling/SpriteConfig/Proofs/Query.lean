import SpriteConfig.Proofs.Valid
/-!
# Questions about valid documents

A subject of a valid document stands on a line of it, and what a lookup finds is a line whose
definition is where it should be. So every question has an answer, whatever it names.
-/
namespace SpriteConfig
namespace Document

inductive Query
  | hasDirect (subject : SubjectId) (name : Text)
  | hasCommon (subject : SubjectId) (name : Text)
  | hasEffective (subject : SubjectId) (name : Text)
  | direct (subject : SubjectId) (name : Text)
  | common (subject : SubjectId) (name : Text)
  | effective (subject : SubjectId) (name : Text)
  | ownParameters (subject : SubjectId)
  | ownParameter (subject : SubjectId) (index : Nat)
  | layout (subject : SubjectId)
  | spriteName (subject : SubjectId)
  | lineParameters (line : Nat)
  deriving DecidableEq, Repr

inductive Answer
  | flag (value : Bool)
  | parameters (values : Option (List Text))
  | parameter (value : Option Text)
  | layout (value : Layout)
  | name (value : Text)
  deriving DecidableEq, Repr

def ask (d : Document) : Query → Checked Answer
  | .hasDirect s name => .flag <$> d.hasDirect s name
  | .hasCommon s name => .flag <$> d.hasCommon s name
  | .hasEffective s name => .flag <$> d.hasEffective s name
  | .direct s name => .parameters <$> d.direct? s name
  | .common s name => .parameters <$> d.common? s name
  | .effective s name => .parameters <$> d.effective? s name
  | .ownParameters s => .parameters <$> d.ownParameters? s
  | .ownParameter s index => .parameter <$> d.ownParameter? s index
  | .layout s => .layout <$> d.layout s
  | .spriteName s => .name <$> d.spriteName s
  | .lineParameters n => .parameters <$> foundParameters (d.lines[n]?.map (·, n))

inductive Use
  | edit (e : Edit)
  | ask (q : Query)
  deriving DecidableEq, Repr

def use (d : Document) : Use → Checked (Document × Answer)
  | .edit e => do
    let (d, applied) ← d.perform e
    return (d, .flag applied)
  | .ask q => (d, ·) <$> d.ask q

def useAll (d : Document) : List Use → Checked (Document × List Answer)
  | [] => .ok (d, [])
  | u :: us => do
    let (d, answer) ← d.use u
    let (d, answers) ← d.useAll us
    return (d, answer :: answers)

variable {d : Document}

theorem exists_foundParameters {found : Option (Line × Nat)}
    (h : ∀ l n, found = some (l, n) → l.Shaped) : ∃ values, foundParameters found = .ok values := by
  cases found with
  | none => exact ⟨none, rfl⟩
  | some p =>
    obtain ⟨values, hvalues⟩ := (h p.1 p.2 rfl).exists_parameters
    exact ⟨some values, by rw [foundParameters, hvalues]; rfl⟩

theorem Valid.exists_direct? (hv : d.Valid) (s : SubjectId) (name : Text) :
    ∃ values, d.direct? s name = .ok values := by
  obtain ⟨found, hfound, hat⟩ := hv.exists_directLine? s name
  rw [direct?, hfound]
  exact exists_foundParameters fun l n h => hv.shaped_of_getElem? (hat l n h).1

theorem Valid.exists_common? (hv : d.Valid) (s : SubjectId) (name : Text) :
    ∃ values, d.common? s name = .ok values := by
  obtain ⟨found, hfound, hat⟩ := hv.exists_commonLine? s name
  rw [common?, hfound]
  exact exists_foundParameters fun l n h => hv.shaped_of_getElem? (hat l n h).1

theorem Valid.exists_effective? (hv : d.Valid) (s : SubjectId) (name : Text) :
    ∃ values, d.effective? s name = .ok values := by
  obtain ⟨values, hdirect⟩ := hv.exists_direct? s name
  rw [effective?, hdirect]
  cases values with
  | some values => exact ⟨some values, rfl⟩
  | none => exact hv.exists_common? s name

theorem Valid.exists_ownParameters? (hv : d.Valid) (s : SubjectId) :
    ∃ values, d.ownParameters? s = .ok values := by
  rw [ownParameters?]
  cases hl : d.ownLine? s with
  | none => exact ⟨none, rfl⟩
  | some l =>
    obtain ⟨n, -, hl⟩ := Option.bind_eq_some_iff.mp hl
    obtain ⟨values, hvalues⟩ := (hv.shaped_of_getElem? hl).exists_parameters
    exact ⟨some values, by dsimp only; rw [hvalues]; rfl⟩

theorem Valid.exists_ownParameter? (hv : d.Valid) (s : SubjectId) (index : Nat) :
    ∃ value, d.ownParameter? s index = .ok value := by
  obtain ⟨values, hvalues⟩ := hv.exists_ownParameters? s
  exact ⟨values.bind (·[index]?), by rw [ownParameter?, hvalues]; rfl⟩

theorem Valid.exists_ask (hv : d.Valid) (q : Query) : ∃ answer, d.ask q = .ok answer := by
  cases q with
  | hasDirect s name =>
    obtain ⟨found, hfound, -⟩ := hv.exists_directLine? s name
    exact ⟨_, by rw [ask, hasDirect, hfound]; rfl⟩
  | hasCommon s name =>
    obtain ⟨found, hfound, -⟩ := hv.exists_commonLine? s name
    exact ⟨_, by rw [ask, hasCommon, hfound]; rfl⟩
  | hasEffective s name =>
    obtain ⟨direct, hdirect, -⟩ := hv.exists_directLine? s name
    obtain ⟨common, hcommon, -⟩ := hv.exists_commonLine? s name
    rw [ask, hasEffective, hasDirect, hdirect, hasCommon, hcommon]
    cases direct with
    | none => exact ⟨_, rfl⟩
    | some p => exact ⟨_, rfl⟩
  | direct s name =>
    obtain ⟨values, hvalues⟩ := hv.exists_direct? s name
    exact ⟨_, by rw [ask, hvalues]; rfl⟩
  | common s name =>
    obtain ⟨values, hvalues⟩ := hv.exists_common? s name
    exact ⟨_, by rw [ask, hvalues]; rfl⟩
  | effective s name =>
    obtain ⟨values, hvalues⟩ := hv.exists_effective? s name
    exact ⟨_, by rw [ask, hvalues]; rfl⟩
  | ownParameters s =>
    obtain ⟨values, hvalues⟩ := hv.exists_ownParameters? s
    exact ⟨_, by rw [ask, hvalues]; rfl⟩
  | ownParameter s index =>
    obtain ⟨value, hvalue⟩ := hv.exists_ownParameter? s index
    exact ⟨_, by rw [ask, hvalue]; rfl⟩
  | layout s =>
    obtain ⟨layout, hlayout⟩ := hv.exists_layout s
    exact ⟨_, by rw [ask, hlayout]; rfl⟩
  | spriteName s =>
    obtain ⟨own, hown⟩ := hv.exists_ownParameter? s 0
    obtain ⟨id, hid⟩ := hv.exists_effective? s "id".toList
    rw [ask, spriteName, hown, hid]
    rcases own with _ | _ | ⟨c, t⟩
    · exact ⟨_, rfl⟩
    · exact ⟨_, rfl⟩
    · exact ⟨_, rfl⟩
  | lineParameters n =>
    obtain ⟨values, hvalues⟩ : ∃ values, foundParameters (d.lines[n]?.map (·, n)) = .ok values := by
      apply exists_foundParameters
      intro l m h
      obtain ⟨l, hl, heq⟩ := Option.map_eq_some_iff.mp h
      obtain ⟨rfl, -⟩ := Prod.mk.inj heq
      exact hv.shaped_of_getElem? hl
    exact ⟨_, by rw [ask, hvalues]; rfl⟩

theorem Valid.exists_use (hv : d.Valid) (u : Use) :
    ∃ d' answer, d.use u = .ok (d', answer) ∧ d'.Valid := by
  cases u with
  | edit e =>
    obtain ⟨cs, d', applied, hperform, -, hfollows⟩ := hv.exists_perform e
    exact ⟨d', .flag applied, by rw [use, hperform]; rfl, hv.follows hfollows⟩
  | ask q =>
    obtain ⟨answer, hask⟩ := hv.exists_ask q
    exact ⟨d, answer, by rw [use, hask]; rfl, hv⟩

theorem Valid.exists_useAll (hv : d.Valid) (us : List Use) :
    ∃ d' answers, d.useAll us = .ok (d', answers) ∧ d'.Valid := by
  induction us generalizing d with
  | nil => exact ⟨d, [], rfl, hv⟩
  | cons u us ih =>
    obtain ⟨d₁, answer, huse, hv₁⟩ := hv.exists_use u
    obtain ⟨d', answers, hrest, hv'⟩ := ih hv₁
    refine ⟨d', answer :: answers, ?_, hv'⟩
    rw [useAll, huse, Checked.ok_bind]
    dsimp only
    rw [hrest]
    rfl

end Document
end SpriteConfig

import SpriteConfig.Proofs.Property
import SpriteConfig.Proofs.Reparse
import SpriteConfig.Selector
/-!
# Faithful documents

What is written of a faithful document holds its lines and its subjects, with any line breaks. A
property that introduces no subject keeps a document faithful, and its subjects what they are.
-/
namespace SpriteConfig

open List (Forall₂)

structure PropertyWrite where
  subject : SubjectId
  name : Text
  values : List Text
  deriving DecidableEq, Repr

/-- Whether a property keeps to its line, with any line breaks, and introduces no subject. -/
structure PropertyWrite.Plain (w : PropertyWrite) : Prop where
  isToken : w.name.IsToken
  no_cr : '\r' ∉ w.name
  ne_token : ∀ kind : SubjectKind, w.name ≠ kind.token
  values_plain : ∀ v ∈ w.values, '\n' ∉ v ∧ '\r' ∉ v

namespace Registry

/-- What the subjects are, wherever they stand. -/
def roster (r : Registry) : List (SubjectId × SubjectKind × Option SubjectId) :=
  r.subjects.map fun s => (s.id, s.kind, s.parent)

variable {r r' : Registry}

theorem roster_shiftAfter (after : Handle) (delta : Int) :
    (r.shiftAfter after delta).roster = r.roster := by
  simp [roster, shiftAfter]

theorem exists_handle?_iff {id : SubjectId} :
    (∃ h, r.handle? id = some h) ↔ id ∈ r.roster.map Prod.fst := by
  have hsome : (∃ h, r.handle? id = some h) ↔ (r.find? id).isSome = true := by
    rw [handle?, ← Option.isSome_iff_exists, Option.isSome_map]
  rw [hsome, find?, List.find?_isSome]
  simp [roster]

end Registry

theorem Selector.find?_congr {r r' : Registry} (h : r.roster = r'.roster) (sel : Selector) :
    sel.find? r = sel.find? r' := by
  have hkind : ∀ kind, r.ofKind kind = r'.ofKind kind := by
    intro kind
    have hof : ∀ r : Registry,
        r.ofKind kind = (r.roster.filter fun p => p.2.1 = kind).map Prod.fst := by
      intro r
      simp [Registry.ofKind, Registry.roster, List.filter_map, Function.comp_def]
    rw [hof, hof, h]
  have hsprites : ∀ input, r.sprites input = r'.sprites input := by
    intro input
    have hof : ∀ r : Registry, r.sprites input =
        (r.roster.filter fun p => p.2.1 = .sprite && p.2.2 = some input).map Prod.fst := by
      intro r
      simp [Registry.sprites, Registry.roster, List.filter_map, Function.comp_def]
    rw [hof, hof, h]
  cases sel with
  | sheet n => rw [find?, find?, Registry.sheets, Registry.sheets, hkind]
  | input n => rw [find?, find?, Registry.inputs, Registry.inputs, hkind]
  | sprite i j => simp only [find?, Registry.inputs, hkind, hsprites]

namespace Document

/-- Whether what is written of a document holds its lines and its subjects, with any line breaks. -/
structure Faithful (d : Document) : Prop where
  valid : d.Valid
  settled : d.Settled
  no_lf : d.Lacks '\n'
  no_cr : d.Lacks '\r'
  lines_ne_nil : d.lines ≠ []
  registry_eq : d.registry = Registry.ofLines d.lines

variable {d d' : Document}

theorem faithful_parse {source : Text} (hcr : '\r' ∉ source) {options : Options}
    (ho : options.Indents) : (parse source options).Faithful := by
  refine ⟨valid_parse source ho, settled_parse source options, lacks_parse source options,
    lacks_of_not_mem hcr options, ?_, rfl⟩
  intro hnil
  have htexts := readLines_map_text 0 (Text.split '\n' source)
  have hlines : readLines 0 (Text.split '\n' source) = [] := hnil
  rw [hlines, List.map_nil] at htexts
  exact Text.split_ne_nil '\n' source htexts.symm

theorem Faithful.normalize_restore (hf : d.Faithful) (e : LineBreak) :
    (LineBreak.detect (e.restore d.source)).normalize (e.restore d.source) = d.source :=
  e.normalize_detect_restore (hf.no_cr.not_mem_source (by decide))

theorem Faithful.direct?_parse (hf : d.Faithful) (options : Options) (s : SubjectId) (name : Text) :
    (parse d.source options).registry = d.registry ∧
      (parse d.source options).direct? s name = d.direct? s name := by
  have ha : Forall₂ Line.Agrees d.lines (parse d.source options).lines :=
    forall₂_readSource_writeSource hf.lines_ne_nil hf.settled hf.no_lf
  have hregistry : (parse d.source options).registry = d.registry := by
    rw [hf.registry_eq]
    exact (ofLines_congr (ha.imp fun _ _ h => h.alike)).symm
  refine ⟨hregistry, ?_⟩
  rw [direct?, direct?, directLine?, directLine?, hregistry]
  cases hs : d.registry.handle? s with
  | none => rfl
  | some h =>
    obtain ⟨subject, hmem, -, rfl⟩ := Registry.exists_of_handle? hs
    dsimp only
    rw [findDirect?_congr ha (hf.valid.defined hmem) name]

theorem Faithful.writingOf (hf : d.Faithful) {w : PropertyWrite} (hw : w.Plain) {h : Handle}
    {c : Change} (hc : d.writingOf h w.name w.values = .ok c) (hfits : c.Fits d)
    (hstep : d.Step c d') :
    d'.Faithful ∧ d'.options = d.options ∧ d'.registry.roster = d.registry.roster := by
  have hlf : '\n' ∉ w.name ∧ ∀ v ∈ w.values, '\n' ∉ v :=
    ⟨hw.isToken.one_line, fun v hv => (hw.values_plain v hv).1⟩
  have hcr : '\r' ∉ w.name ∧ ∀ v ∈ w.values, '\r' ∉ v :=
    ⟨hw.no_cr, fun v hv => (hw.values_plain v hv).2⟩
  have hvalid := hf.valid.step hfits hstep
  have hsettled := hf.settled.step hf.valid hfits
    (writes_writingOf hc hw.isToken.toIsWord fun _ _ => trivial) hstep
  have hnoLf := hf.no_lf.step rfl rfl hf.valid hfits (writes_writingOf hc hlf.1 hlf.2) hstep
  have hnoCr := hf.no_cr.step rfl rfl hf.valid hfits (writes_writingOf hc hcr.1 hcr.2) hstep
  rcases eq_of_writingOf hc with ⟨indent, rfl⟩ | ⟨_, n, -, rfl⟩
  · cases hstep with
    | insert hle =>
      have hdef : ∀ kind : SubjectKind,
            (Line.make indent w.name w.values).definition ≠ kind.token := by
        simpa using hw.ne_token
      refine ⟨⟨hvalid, hsettled, hnoLf, hnoCr, by simp, ?_⟩, rfl,
        Registry.roster_shiftAfter _ _⟩
      rw [Registry.ofLines_inserted hdef hle, ← hf.registry_eq]
  · cases hstep with
    | rewrite hl hset =>
      have halike := Line.alike_setParameters hset
      refine ⟨⟨hvalid, hsettled, hnoLf, hnoCr, by simpa using hf.lines_ne_nil, ?_⟩, rfl, rfl⟩
      rw [← ofLines_congr (forall₂_set Line.Alike.refl hl halike), ← hf.registry_eq]

end Document

end SpriteConfig

import Bitwire.Proofs.ArrayLevels
import Bitwire.Proofs.EnumInspections
import Bitwire.Proofs.Simulation

/-!
# What visits are about

A visit, or an inspection of the check of enums, is made for one of the fields of a message.  Its
place has the number of that field and one index for each of its array levels, each below the
capacity of the level; the visits inside a nested message are about the fields of that message.
-/

namespace Bitwire

/-! ## 1. Places inside fields -/

namespace PlacedField

/-- A place that leads to a value of a field, past all array levels of the field. -/
structure Leads (f : FieldFormat) (place : Place) (g : Format) : Prop where
  field : place.field = f.number
  core : f.format.core = g
  indices : List.Forall₂ (· < ·) place.indices f.format.capacities

/-- A place that leads into a field, past some of its array levels. -/
structure Enters (f : FieldFormat) (place : Place) (g : Format) : Prop where
  field : place.field = f.number
  core : f.format.core = g.core
  indices : ∃ front, f.format.capacities = front ++ g.capacities ∧
    List.Forall₂ (· < ·) place.indices front

namespace Enters

variable {f : FieldFormat} {place : Place} {g : Format}

theorem refl (f : FieldFormat) : Enters f ⟨f.number, []⟩ f.format :=
  ⟨rfl, rfl, [], rfl, .nil⟩

/-- An element is entered by its index. -/
theorem element {element : Format} {capacity i : Nat}
    (h : f.Enters place (.array element capacity)) (hi : i < capacity) :
    f.Enters (place.element i) element := by
  obtain ⟨hfield, hcore, front, hcap, hindices⟩ := h
  refine ⟨hfield, hcore, front ++ [capacity], ?_, List.rel_append hindices (.cons hi .nil)⟩
  rw [hcap, List.append_assoc]
  rfl

theorem leads (h : f.Enters place g) (hcore : g.core = g) (hcap : g.capacities = []) :
    f.Leads place g := by
  obtain ⟨hfield, hfcore, front, hfront, hindices⟩ := h
  rw [hcap, List.append_nil] at hfront
  exact ⟨hfield, hfcore.trans hcore, hfront ▸ hindices⟩

end Enters

end PlacedField

/-! ## 2. Visits and inspections -/

/-- Visits that are about values of certain fields, visits of nested messages included. -/
inductive Visit.About : List FieldFormat → Visit → Prop
  | value {fields : List FieldFormat} {f : FieldFormat} {place : Place} {g : Format}
    {span : ByteSpan} : f ∈ fields → f.Leads place g → g.isScalar = true →
      About fields (.value place span)
  | message {fields : List FieldFormat} {f : FieldFormat} {place : Place} {inner : MessageFormat}
    {visits : List Visit} : f ∈ fields → f.Leads place (.message inner) →
      (∀ visit ∈ visits, About inner.fields.toList visit) → About fields (.message place visits)

/-- Inspections that are about values of certain fields. -/
inductive Inspection.About : List FieldFormat → Inspection → Prop
  | value {fields : List FieldFormat} {f : FieldFormat} {place : Place} {path : FieldPath}
    {e : EnumFormat} : f ∈ fields → f.Leads place (.enum e) → About fields (.value place path e)
  | message {fields : List FieldFormat} {f : FieldFormat} {place : Place} {inner : MessageFormat}
    {inspections : List Inspection} : f ∈ fields → f.Leads place (.message inner) →
      (∀ i ∈ inspections, About inner.fields.toList i) → About fields (.message place inspections)

-- What is about one field is about any fields that it is among.
theorem Visit.About.of_mem {fields : List FieldFormat} {f : FieldFormat} {visit : Visit}
    (h : visit.About [f]) (hf : f ∈ fields) : visit.About fields := by
  cases h with
  | value hg hleads hs => exact .value (List.mem_singleton.mp hg ▸ hf) hleads hs
  | message hg hleads hinner => exact .message (List.mem_singleton.mp hg ▸ hf) hleads hinner

theorem Inspection.About.of_mem {fields : List FieldFormat} {f : FieldFormat} {i : Inspection}
    (h : i.About [f]) (hf : f ∈ fields) : i.About fields := by
  cases h with
  | value hg hleads => exact .value (List.mem_singleton.mp hg ▸ hf) hleads
  | message hg hleads hinner => exact .message (List.mem_singleton.mp hg ▸ hf) hleads hinner

namespace Format

-- Whatever a field is visited for, its own place says so.
theorem about_visits (g : Format) {f : FieldFormat} {place : Place} (h : f.Enters place g)
    (offset byte : Nat) : ∀ visit ∈ g.visits place offset byte, visit.About [f] := by
  induction g using Format.induct generalizing f place offset with
  | scalar g hs =>
    intro visit hvisit
    rw [visits_scalar hs, Visit.ofLeaf] at hvisit
    split at hvisit
    next span =>
      rw [List.mem_singleton.mp hvisit]
      exact .value List.mem_cons_self (h.leads (core_scalar hs) (capacities_scalar hs)) hs
    next => exact absurd hvisit List.not_mem_nil
  | array element capacity ih =>
    intro visit hvisit
    rw [visits] at hvisit
    obtain ⟨i, hi, hvisit⟩ := List.mem_flatMap.mp hvisit
    exact ih (h.element (lt_of_mem_overlappingElements hi)) _ visit hvisit
  | message inner ih =>
    intro visit hvisit
    rw [visits] at hvisit
    rw [List.mem_singleton.mp hvisit]
    refine .message List.mem_cons_self (h.leads rfl rfl) fun visit hvisit => ?_
    obtain ⟨g, hg, hvisit⟩ := mem_fieldVisits hvisit
    exact (ih g hg (.refl g) _ visit hvisit).of_mem hg

theorem about_inspections (g : Format) {f : FieldFormat} {place : Place} (h : f.Enters place g)
    (path : FieldPath) : ∀ i ∈ g.inspections place path, i.About [f] := by
  induction g using Format.induct generalizing f place path with
  | scalar g hs =>
    intro i hi
    cases g with
    | enum e =>
      rw [inspections] at hi
      split at hi
      next => exact absurd hi List.not_mem_nil
      next =>
        rw [List.mem_singleton.mp hi]
        exact .value List.mem_cons_self (h.leads rfl rfl)
    | bool | int | uint =>
      rw [inspections] at hi
      exact absurd hi List.not_mem_nil
    | array | message => exact absurd hs Bool.false_ne_true
  | array element capacity ih =>
    intro i hi
    rw [inspections] at hi
    obtain ⟨k, hk, hi⟩ := List.mem_flatMap.mp hi
    have hlt : k < capacity := by
      obtain ⟨-, hlt⟩ := List.mem_range'_1.mp hk
      omega
    exact ih (h.element hlt) _ i hi
  | message inner ih =>
    intro i hi
    rw [inspections] at hi
    rw [List.mem_singleton.mp hi]
    refine .message List.mem_cons_self (h.leads rfl rfl) fun i hi => ?_
    obtain ⟨g, hg, hi⟩ := mem_fieldInspections hi
    exact (ih g hg (.refl g) _ i hi).of_mem hg

end Format

theorem MessageFormat.about_visits (m : MessageFormat) (byte : Nat) :
    ∀ visit ∈ m.visits byte, visit.About m.fields.toList := by
  intro visit hvisit
  obtain ⟨f, hf, hvisit⟩ := Format.mem_fieldVisits hvisit
  exact (f.format.about_visits (.refl f) _ _ visit hvisit).of_mem hf

theorem MessageFormat.about_inspections (m : MessageFormat) :
    ∀ i ∈ m.inspections, i.About m.fields.toList := by
  intro i hi
  obtain ⟨f, hf, hi⟩ := Format.mem_fieldInspections hi
  exact (f.format.about_inspections (.refl f) _ i hi).of_mem hf

end Bitwire

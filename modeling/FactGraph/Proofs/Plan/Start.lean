import FactGraph.Proofs.Plan.Joined
import FactGraph.Proofs.Plan.Paths

/-! # What a compilation starts from

The given labels of a specification are bound to the first slots, and so are the inputs of its plan,
none of which has parameters yet. The start facts are the facts in these slots.

* `Specification.starts`: a well-formed specification starts from facts of its given types. -/

namespace FactGraph

/-! ### Names in order -/

theorem lookup_zip_reverse_iff {α : Type} {names : List String} {values : List α}
    (hn : names.Nodup) (hlen : names.length = values.length) {key : String} {value : α} :
    (names.zip values).reverse.lookup key = some value ↔
      ∃ i : Nat, names[i]? = some key ∧ values[i]? = some value := by
  have hkeys : (((names.zip values).reverse).map Prod.fst).Nodup := by
    rw [List.map_reverse, List.map_fst_zip (Nat.le_of_eq hlen)]
    exact List.nodup_reverse.mpr hn
  rw [lookup_eq_some_iff_mem hkeys, List.mem_reverse, List.mem_iff_getElem?]
  simp only [List.getElem?_zip_eq_some]

namespace Scope

theorem declareAll_eq_ok : ∀ {labels : List Label} {scope scope' : Scope},
    scope.declareAll labels = .ok scope' → scope' = scope.bindAll labels ∧
      (labels.map Label.name).Nodup ∧ ∀ label ∈ labels, scope.type? label.name = none
  | [], _, _, h => by
    cases h
    exact ⟨rfl, List.nodup_nil, by simp⟩
  | label :: rest, scope, scope', h => by
    obtain ⟨inner, hd, h⟩ := Except.bind_eq_ok_iff.mp h
    obtain ⟨hnew, rfl⟩ := declare_eq_ok_iff.mp hd
    obtain ⟨he, hn, hrest⟩ := declareAll_eq_ok h
    have hne : ∀ other ∈ rest, other.name ≠ label.name := fun other ho heq => by
      have := hrest other ho
      rw [heq, type?_bind_self] at this
      cases this
    refine ⟨he, ?_, fun other ho => ?_⟩
    · rw [List.map_cons, List.nodup_cons]
      refine ⟨fun hm => ?_, hn⟩
      obtain ⟨other, ho, heq⟩ := List.mem_map.mp hm
      exact hne other ho heq
    · rcases List.mem_cons.mp ho with rfl | ho
      · exact hnew
      · rw [← type?_bind_of_ne (hne other ho)]
        exact hrest other ho

theorem bindAll_eq : ∀ {labels : List Label} {scope : Scope}, scope.bindAll labels =
    ((labels.map Label.name).zip (labels.map Label.type)).reverse ++ scope
  | [], _ => rfl
  | label :: rest, scope => by
    have h := @bindAll_eq rest (scope.bind label)
    simpa [bindAll, bind] using h

end Scope

/-! ### The start of a specification -/

/-- The given labels are bound to the start facts. -/
def Specification.environment {Node : Type} (spec : Specification) (start : List Node) :
    Environment Node :=
  ((spec.given.map Label.name).zip start).reverse

/-- Facts as they are referred to: by their types and hashes. -/
def Graph.reference {Node : Type} (G : Graph Node) (hash : Node → String) (f : Node) :
    FactReference :=
  ⟨G.type f, hash f⟩

/-- A compilation starts from the facts in the slots of the inputs. -/
structure Joined.Starts {Node : Type} (G : Graph Node) (schema : Schema) (hash : Node → String)
    (inputs : List Plan.Input) (old : Joined) (σ : Nat → Node) (env : Environment Node) : Prop where
  start : Plan.StartInputs inputs
  unused : ∀ input ∈ inputs, input.typeParameter = none ∧ input.hashParameter = none
  pins : ∀ input ∈ inputs, input.typeId = schema.factTypeId (G.type (σ input.slot)) ∧
    input.hash = hash (σ input.slot)
  sound : old.Sound inputs
  sees : old.Sees (inputs.map Plan.Input.slot)
  typed : old.Typed G σ
  reads : old.Reads σ env
  trunk : old.plan.trunk = Plan.Group.empty

namespace Specification

variable {spec : Specification} {schema : Schema} {refs : List FactReference}

theorem mem_inputs {input : Plan.Input} (h : input ∈ spec.inputs schema refs) :
    ∃ (i : Nat) (label : Label) (ref : FactReference), spec.given[i]? = some label ∧
      refs[i]? = some ref ∧
      input = ⟨label.name, i + 1, schema.factTypeId label.type, ref.hash, none, none⟩ := by
  unfold inputs at h
  obtain ⟨⟨⟨label, ref⟩, slot⟩, hm, rfl⟩ := List.mem_map.mp h
  obtain ⟨hle, hget⟩ := List.mk_mem_zipIdx_iff_le_and_getElem?_sub.mp hm
  obtain ⟨hl, hr⟩ := List.getElem?_zip_eq_some.mp hget
  exact ⟨slot - 1, label, ref, hl, hr, by rw [Nat.sub_add_cancel hle]⟩

theorem mem_inputs_of_getElem? {i : Nat} {label : Label} {ref : FactReference}
    (hl : spec.given[i]? = some label) (hr : refs[i]? = some ref) :
    ⟨label.name, i + 1, schema.factTypeId label.type, ref.hash, none, none⟩ ∈
      spec.inputs schema refs := by
  refine List.mem_map.mpr ⟨((label, ref), i + 1), ?_, rfl⟩
  rw [List.mk_mem_zipIdx_iff_le_and_getElem?_sub, Nat.add_sub_cancel]
  exact ⟨Nat.le_add_left 1 i, List.getElem?_zip_eq_some.mpr ⟨hl, hr⟩⟩

theorem checkStart_eq_ok (h : spec.checkStart refs = .ok ()) :
    refs.length = spec.given.length ∧ ∀ (i : Nat) (label : Label) (ref : FactReference),
      spec.given[i]? = some label → refs[i]? = some ref → ref.type = label.type := by
  unfold checkStart at h
  split_ifs at h with hlen
  rw [ne_eq, not_not] at hlen
  refine ⟨hlen, fun i label ref hl hr => ?_⟩
  split at h
  · cases h
  · rename_i hnone
    have hm : ((ref, label), i) ∈ (refs.zip spec.given).zipIdx :=
      List.mk_mem_zipIdx_iff_getElem?.mpr (List.getElem?_zip_eq_some.mpr ⟨hr, hl⟩)
    simpa using List.find?_eq_none.mp hnone _ hm

theorem distinct_inputs (hnames : (spec.given.map Label.name).Nodup)
    (hlen : refs.length = spec.given.length) : Plan.Distinct (spec.inputs schema refs) where
  labels := by
    have hmap : (spec.inputs schema refs).map Plan.Input.label =
        ((((spec.given.zip refs).zipIdx 1).map Prod.fst).map Prod.fst).map Label.name := by
      simp only [inputs, List.map_map]
      rfl
    rw [hmap, List.zipIdx_map_fst, List.map_fst_zip (Nat.le_of_eq hlen.symm)]
    exact hnames
  slots := by
    have hmap : (spec.inputs schema refs).map Plan.Input.slot =
        ((spec.given.zip refs).zipIdx 1).map Prod.snd := by
      simp only [inputs, List.map_map]
      rfl
    rw [hmap, List.zipIdx_map_snd]
    exact List.nodup_range'

theorem startInputs (hnames : (spec.given.map Label.name).Nodup)
    (hlen : refs.length = spec.given.length)
    (htyped : ∀ label ∈ spec.given, (schema.factTypeId label.type).isSome = true) :
    Plan.StartInputs (spec.inputs schema refs) where
  labels := (distinct_inputs hnames hlen).labels
  slots := (distinct_inputs hnames hlen).slots
  typed input hi := by
    obtain ⟨i, label, ref, hl, -, rfl⟩ := mem_inputs hi
    exact htyped label (List.mem_of_getElem? hl)

theorem givenFacts_getElem? {i : Nat} : spec.givenFacts[i]? =
    spec.given[i]?.map fun label => ⟨i + 1, label.type⟩ := by
  unfold givenFacts
  rw [List.getElem?_map, List.getElem?_zipIdx]
  cases spec.given[i]? <;> simp [Nat.add_comm]

theorem lookup_initial_iff (hnames : (spec.given.map Label.name).Nodup) {name : String}
    {fact : Plan.Fact} : (spec.initial schema refs).bindings.lookup name = some fact ↔
      ∃ (i : Nat) (label : Label), spec.given[i]? = some label ∧ label.name = name ∧
        fact = ⟨i + 1, label.type⟩ := by
  have hlen : (spec.given.map Label.name).length = spec.givenFacts.length := by simp [givenFacts]
  rw [initial, lookup_zip_reverse_iff hnames hlen]
  simp only [givenFacts_getElem?, List.getElem?_map, Option.map_eq_some_iff]
  constructor
  · rintro ⟨i, ⟨label, hl, hn⟩, other, ho, rfl⟩
    obtain rfl : label = other := Option.some_inj.mp (hl.symm.trans ho)
    exact ⟨i, label, hl, hn, rfl⟩
  · rintro ⟨i, label, hl, hn, rfl⟩
    exact ⟨i, ⟨label, hl, hn⟩, label, hl, rfl⟩

variable {Node : Type} {G : Graph Node} {hash : Node → String} {start : List Node} {scope : Scope}

theorem within_initial (hd : Scope.declareAll [] spec.given = .ok scope) :
    (spec.initial schema refs).Within scope := by
  obtain ⟨rfl, hnames, -⟩ := Scope.declareAll_eq_ok hd
  intro name fact hl
  obtain ⟨i, label, hget, rfl, rfl⟩ := (lookup_initial_iff hnames).mp hl
  unfold Scope.type?
  rw [Scope.bindAll_eq, List.append_nil, lookup_zip_reverse_iff hnames (by simp)]
  exact ⟨i, by simp [hget], by simp [hget]⟩

theorem slot_le_initial {i : Nat} {label : Label} (h : spec.given[i]? = some label) :
    i + 1 ≤ (spec.initial schema refs).plan.facts.length := by
  have hlt := (List.getElem?_eq_some_iff.mp h).1
  simp only [initial, Plan.start, givenFacts, List.length_map, List.length_zipIdx]
  omega

theorem mem_slots_initial {s : Nat} (h : s ∈ (spec.initial schema refs).slots) :
    ∃ (i : Nat) (label : Label), spec.given[i]? = some label ∧ s = i + 1 := by
  unfold Joined.slots initial at h
  obtain ⟨⟨name, fact⟩, hm, rfl⟩ := List.mem_map.mp h
  rw [List.mem_reverse] at hm
  obtain ⟨i, hi⟩ := List.mem_iff_getElem?.mp (List.of_mem_zip hm).2
  rw [givenFacts_getElem?, Option.map_eq_some_iff] at hi
  obtain ⟨label, hl, rfl⟩ := hi
  exact ⟨i, label, hl, rfl⟩

theorem exists_input (hlen : refs.length = spec.given.length) {i : Nat} {label : Label}
    (h : spec.given[i]? = some label) :
    ∃ input ∈ spec.inputs schema refs, input.label = label.name ∧ input.slot = i + 1 := by
  have hlt : i < refs.length := hlen ▸ (List.getElem?_eq_some_iff.mp h).1
  exact ⟨_, mem_inputs_of_getElem? h (List.getElem?_eq_getElem hlt), rfl, rfl⟩

theorem sound_initial (hnames : (spec.given.map Label.name).Nodup)
    (hlen : refs.length = spec.given.length) :
    (spec.initial schema refs).Sound (spec.inputs schema refs) where
  derives := List.forall₂_same.mpr fun _ _ => Or.inl rfl
  inputs_le input hi := by
    obtain ⟨i, label, ref, hl, -, rfl⟩ := mem_inputs hi
    exact slot_le_initial hl
  slots_le s hs := by
    obtain ⟨i, label, hl, rfl⟩ := mem_slots_initial hs
    exact slot_le_initial hl
  settled name fact hl := by
    obtain ⟨i, label, hget, rfl, rfl⟩ := (lookup_initial_iff hnames).mp hl
    exact Or.inl (exists_input hlen hget)

theorem sees_initial (hlen : refs.length = spec.given.length) :
    (spec.initial schema refs).Sees ((spec.inputs schema refs).map Plan.Input.slot) where
  slots s hs := by
    obtain ⟨i, label, hl, rfl⟩ := mem_slots_initial hs
    obtain ⟨input, hi, -, he⟩ := exists_input hlen hl
    exact List.mem_map.mpr ⟨input, hi, he⟩
  le s hs := by
    obtain ⟨input, hi, rfl⟩ := List.mem_map.mp hs
    obtain ⟨i, label, ref, hl, -, rfl⟩ := mem_inputs hi
    exact slot_le_initial hl

/-- **A well-formed specification starts from facts of its given types.** -/
theorem starts (hk : schema.Knows G) (hd : Scope.declareAll [] spec.given = .ok scope)
    (hc : spec.checkStart (start.map (G.reference hash)) = .ok ()) {σ : Nat → Node}
    (hσ : ∀ (i : Nat) (f : Node), start[i]? = some f → σ (i + 1) = f) :
    (spec.initial schema (start.map (G.reference hash))).Starts G schema hash
      (spec.inputs schema (start.map (G.reference hash))) σ (spec.environment start) := by
  obtain ⟨-, hnames, -⟩ := Scope.declareAll_eq_ok hd
  obtain ⟨hlen, htypes⟩ := checkStart_eq_ok hc
  -- the fact at the place of a given label has its type, and is in its slot
  have hfact : ∀ (i : Nat) (label : Label), spec.given[i]? = some label →
      ∃ f, start[i]? = some f ∧ σ (i + 1) = f ∧ G.type f = label.type := by
    intro i label hl
    have hlt : i < start.length := by
      have := (List.getElem?_eq_some_iff.mp hl).1
      rw [List.length_map] at hlen
      omega
    have hget := List.getElem?_eq_getElem hlt
    exact ⟨_, hget, hσ _ _ hget, htypes i label _ hl (by rw [List.getElem?_map, hget]; rfl)⟩
  refine ⟨startInputs hnames hlen fun label hm => ?_, fun input hi => ?_, fun input hi => ?_,
    sound_initial hnames hlen, sees_initial hlen, fun name fact hl => ?_, fun name fact hl => ?_,
    rfl⟩
  · obtain ⟨i, hl⟩ := List.mem_iff_getElem?.mp hm
    obtain ⟨f, -, -, ht⟩ := hfact i label hl
    rw [← ht]
    exact hk.types f
  · obtain ⟨_, _, _, -, -, rfl⟩ := mem_inputs hi
    exact ⟨rfl, rfl⟩
  · obtain ⟨i, label, ref, hl, hr, rfl⟩ := mem_inputs hi
    obtain ⟨f, hget, hf, ht⟩ := hfact i label hl
    rw [List.getElem?_map, hget] at hr
    cases hr
    exact ⟨by rw [hf, ht], by rw [hf]; rfl⟩
  · obtain ⟨i, label, hget, rfl, rfl⟩ := (lookup_initial_iff hnames).mp hl
    obtain ⟨f, -, hf, ht⟩ := hfact i label hget
    rw [hf, ht]
  · obtain ⟨i, label, hget, rfl, rfl⟩ := (lookup_initial_iff hnames).mp hl
    obtain ⟨f, hstart, hf, -⟩ := hfact i label hget
    rw [hf, environment, lookup_zip_reverse_iff hnames (by simpa using hlen.symm)]
    exact ⟨i, by simp [hget], hstart⟩

end Specification

end FactGraph

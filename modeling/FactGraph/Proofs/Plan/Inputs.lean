import FactGraph.Proofs.Plan.Branches
import Mathlib.Data.List.Nodup

/-! # Inputs of plans

The inputs of a plan keep their labels and slots. An input gets its parameters when a path first uses
it; then its slot is settled.

* `Plan.grows_of_useInput`: an input that is used is settled then.
* `Plan.useInput_grows`: an input of a known type can be used. -/

namespace FactGraph.Plan

variable {plan plan' : Plan} {inputs : List Input} {label : String}

/-- Inputs with labels and slots of their own. -/
structure Distinct (inputs : List Input) : Prop where
  labels : (inputs.map Input.label).Nodup
  slots : (inputs.map Input.slot).Nodup

/-- Inputs with labels and slots of their own, of types that the catalog knows. -/
structure StartInputs (inputs : List Input) : Prop where
  labels : (inputs.map Input.label).Nodup
  slots : (inputs.map Input.slot).Nodup
  typed : ∀ input ∈ inputs, input.typeId.isSome = true

theorem StartInputs.distinct (h : StartInputs inputs) : Distinct inputs := ⟨h.labels, h.slots⟩

/-! ### Labels and slots -/

theorem Input.DerivesFrom.label_eq {parameters : List Parameter} {input derived : Input}
    (h : input.DerivesFrom parameters derived) : derived.label = input.label := by
  obtain rfl | ⟨_, _, _, _, _, _, rfl⟩ := h <;> rfl

theorem Input.DerivesFrom.slot_eq {parameters : List Parameter} {input derived : Input}
    (h : input.DerivesFrom parameters derived) : derived.slot = input.slot := by
  obtain rfl | ⟨_, _, _, _, _, _, rfl⟩ := h <;> rfl

theorem Input.DerivesFrom.typeId_eq {parameters : List Parameter} {input derived : Input}
    (h : input.DerivesFrom parameters derived) : derived.typeId = input.typeId := by
  obtain rfl | ⟨_, _, _, _, _, _, rfl⟩ := h <;> rfl

theorem exists_right_of_forall₂ {α β : Type} {r : α → β → Prop} : ∀ {as : List α} {bs : List β},
    List.Forall₂ r as bs → ∀ {a : α}, a ∈ as → ∃ b ∈ bs, r a b
  | _, _, .cons hr hrs, a, ha => by
    rcases List.mem_cons.mp ha with rfl | ha
    · exact ⟨_, List.mem_cons_self, hr⟩
    · obtain ⟨b, hb, hr⟩ := exists_right_of_forall₂ hrs ha
      exact ⟨b, List.mem_cons_of_mem _ hb, hr⟩

theorem map_eq_of_forall₂ {α β γ : Type} {r : α → β → Prop} {f : α → γ} {g : β → γ}
    (hr : ∀ a b, r a b → g b = f a) : ∀ {as : List α} {bs : List β}, List.Forall₂ r as bs →
      bs.map g = as.map f
  | _, _, .nil => rfl
  | _, _, .cons h hs => by
    rw [List.map_cons, List.map_cons, hr _ _ h, map_eq_of_forall₂ hr hs]

theorem DerivesFrom.map_label (h : plan.DerivesFrom inputs) :
    plan.inputs.map Input.label = inputs.map Input.label :=
  map_eq_of_forall₂ (fun _ _ hd => Input.DerivesFrom.label_eq hd) h

theorem DerivesFrom.map_slot (h : plan.DerivesFrom inputs) :
    plan.inputs.map Input.slot = inputs.map Input.slot :=
  map_eq_of_forall₂ (fun _ _ hd => Input.DerivesFrom.slot_eq hd) h

theorem DerivesFrom.exists_derived (h : plan.DerivesFrom inputs) {input : Input}
    (hi : input ∈ inputs) :
    ∃ derived ∈ plan.inputs, input.DerivesFrom plan.parameters derived :=
  exists_right_of_forall₂ h hi

theorem DerivesFrom.exists_start (h : plan.DerivesFrom inputs) {derived : Input}
    (hi : derived ∈ plan.inputs) :
    ∃ input ∈ inputs, input.DerivesFrom plan.parameters derived :=
  exists_right_of_forall₂ h.flip hi

theorem slot_le_of_derivesFrom {bound : Nat} (h : plan.DerivesFrom inputs)
    (hb : ∀ input ∈ inputs, input.slot ≤ bound) : ∀ input ∈ plan.inputs, input.slot ≤ bound := by
  intro derived hm
  obtain ⟨input, hi, hd⟩ := h.exists_start hm
  rw [hd.slot_eq]
  exact hb input hi

/-- An input of the plan with its parameters settles the slot of every start input of its label. -/
theorem settles_of_derivesFrom (hs : Distinct inputs) (h : plan.DerivesFrom inputs)
    {derived input : Input} (hm : derived ∈ plan.inputs) (hp : derived.typeParameter.isSome = true)
    (hi : input ∈ inputs) (hl : input.label = derived.label) : plan.Settles input.slot := by
  intro other ho he
  obtain ⟨own, hown, hd⟩ := h.exists_derived hi
  have hown' : own = derived := List.inj_on_of_nodup_map (h.map_label ▸ hs.labels) hown hm
    (hd.label_eq.trans hl)
  have hother : other = own := List.inj_on_of_nodup_map (h.map_slot ▸ hs.slots) ho hown
    (he.trans hd.slot_eq.symm)
  rw [hother, hown', hp]

/-! ### Using an input -/

theorem forall₂_set {α β : Type} {r s : α → β → Prop} (hrs : ∀ a b, r a b → s a b) :
    ∀ {as : List α} {bs : List β}, List.Forall₂ r as bs → ∀ {i : Nat} {b b' : β}, bs[i]? = some b →
      (∀ a, r a b → s a b') → List.Forall₂ s as (bs.set i b')
  | _, _, .nil, _, _, _, h, _ => by cases h
  | _, _, .cons hr hrest, 0, _, _, h, hs => by
    cases h
    exact .cons (hs _ hr) (hrest.imp hrs)
  | _, _, .cons hr hrest, i + 1, _, _, h, hs =>
    .cons (hrs _ _ hr) (forall₂_set hrs hrest h hs)

theorem exists_of_addInputParameters (h : plan.addInputParameters label = some plan') :
    ∃ position used id, plan.inputs.findIdx? (fun input => input.label == label) = some position ∧
      plan.inputs[position]? = some used ∧ used.typeId = some id ∧
      plan' = { plan with
        parameters := plan.parameters ++ [.integer id, .text used.hash]
        inputs := plan.inputs.set position { used with
          typeParameter := some (plan.parameters.length + 1)
          hashParameter := some (plan.parameters.length + 2) } } := by
  simp only [addInputParameters, Option.bind_eq_bind, Option.bind_eq_some_iff, Option.pure_def,
    Option.some_inj] at h
  obtain ⟨position, hpos, used, hget, id, hid, rfl⟩ := h
  exact ⟨position, used, id, hpos, hget, hid, by simp [addParameter]⟩

theorem derivesFrom_of_addInputParameters (h : plan.DerivesFrom inputs)
    (ha : plan.addInputParameters label = some plan') : plan'.DerivesFrom inputs := by
  obtain ⟨position, used, id, -, hget, hid, rfl⟩ := exists_of_addInputParameters ha
  refine forall₂_set (fun _ _ => Input.DerivesFrom.mono (List.prefix_append _ _)) h hget ?_
  intro first hf
  refine Or.inr ⟨id, plan.parameters.length + 1, plan.parameters.length + 2,
    hf.typeId_eq ▸ hid, by simp [parameterAt], ?_, ?_⟩
  · obtain rfl | ⟨_, _, _, _, _, _, rfl⟩ := hf <;> simp [parameterAt]
  · obtain rfl | ⟨_, _, _, _, _, _, rfl⟩ := hf <;> rfl

theorem grows_of_addInputParameters (hs : Distinct inputs) (h : plan.DerivesFrom inputs)
    (ha : plan.addInputParameters label = some plan') :
    plan'.facts = plan.facts ∧ plan'.outputs = plan.outputs ∧
      (∀ path known, Grows path known plan plan' Group.empty) ∧
      ∀ start ∈ inputs, start.label = label → plan'.Settles start.slot := by
  have hderives : ∀ inputs, plan.DerivesFrom inputs → plan'.DerivesFrom inputs :=
    fun _ hd => derivesFrom_of_addInputParameters hd ha
  obtain ⟨position, used, id, hpos, hget, -, rfl⟩ := exists_of_addInputParameters ha
  obtain ⟨hlt, hlabel, -⟩ := List.findIdx?_eq_some_iff_getElem.mp hpos
  rw [(List.getElem?_eq_some_iff.mp hget).2, beq_iff_eq] at hlabel
  refine ⟨rfl, rfl, fun path known => ?_, fun other ho he => ?_⟩
  · refine ⟨(Group.grow_empty path plan.trunk).symm, List.prefix_append _ _, Nat.le_refl _,
      hderives, ?_, by simp [Group.empty, Group.slots, ends, Group.slotsAll],
      by simp [Group.empty, Group.slots, ends, Group.slotsAll]⟩
    intro slot hset other ho he
    rcases List.mem_or_eq_of_mem_set ho with ho | rfl
    · exact hset other ho he
    · rfl
  · exact settles_of_derivesFrom hs (hderives _ h) (List.mem_set hlt _) rfl ho
      (he.trans hlabel.symm)

/-- **An input that is used is settled.** Nothing but the inputs and the parameters changes. -/
theorem grows_of_useInput (hs : Distinct inputs) (h : plan.DerivesFrom inputs)
    (hu : plan.useInput label = some plan') :
    plan'.facts = plan.facts ∧ plan'.outputs = plan.outputs ∧
      (∀ path known, Grows path known plan plan' Group.empty) ∧
      ∀ input ∈ inputs, input.label = label → plan'.Settles input.slot := by
  unfold useInput at hu
  rcases hi : plan.input? label with _ | derived <;> simp only [hi] at hu
  · cases hu
    refine ⟨rfl, rfl, fun _ _ => Grows.refl plan, fun input hm hl => ?_⟩
    obtain ⟨own, hown, hd⟩ := h.exists_derived hm
    exact absurd (hd.label_eq.trans hl) (by simpa using List.find?_eq_none.mp hi own hown)
  · have hm := List.mem_of_find?_eq_some hi
    have hl : derived.label = label := by simpa using List.find?_some hi
    split_ifs at hu with hp
    · exact grows_of_addInputParameters hs h hu
    · cases hu
      have hpinned : derived.typeParameter.isSome = true :=
        Option.isSome_iff_ne_none.mpr (by simpa using hp)
      exact ⟨rfl, rfl, fun _ _ => Grows.refl plan, fun input hin he =>
        settles_of_derivesFrom hs h hm hpinned hin (he.trans hl.symm)⟩

/-- **An input of a known type can be used**, and its slot is settled then. -/
theorem useInput_grows {label : String} (hs : StartInputs inputs) (h : plan.DerivesFrom inputs) :
    ∃ plan', plan.useInput label = some plan' ∧ plan'.facts = plan.facts ∧
      (∀ path known, Grows path known plan plan' Group.empty) ∧
      ∀ input ∈ inputs, input.label = label → plan'.Settles input.slot := by
  have htyped : ∀ id ∈ plan.inputs.map Input.typeId, id.isSome = true := by
    intro id hid
    obtain ⟨derived, hm, rfl⟩ := List.mem_map.mp hid
    obtain ⟨start, hstart, hd⟩ := h.exists_start hm
    exact hd.typeId_eq ▸ hs.typed start hstart
  obtain ⟨plan', hu⟩ := Option.isSome_iff_exists.mp (isSome_useInput label htyped)
  obtain ⟨hfacts, -, hgrows, hset⟩ := grows_of_useInput hs.distinct h hu
  exact ⟨plan', hu, hfacts, hgrows, hset⟩

end FactGraph.Plan

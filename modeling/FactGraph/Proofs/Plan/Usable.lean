import FactGraph.Proofs.Plan.Selections

/-! # Inputs that can be used

An input can be used if the catalog knows its type. Whether it can is the same throughout a
compilation, since all that happens to an input is that it gets its parameters.

* `Plan.isSome_useInput_eq`: which labels a plan can use.
* `Joined.Reaches.usable_eq`: what a run leaves as it is. -/

namespace FactGraph

namespace Plan

/-- The labels of the inputs, and whether they can be used: their type has a number, or they have
their parameters already. -/
def usable (plan : Plan) : List (String × Bool) :=
  plan.inputs.map fun input =>
    (input.label, input.typeParameter.isSome || input.typeId.isSome)

variable {plan plan' : Plan} {path path' : List Nat}

theorem isSome_addInputParameters_eq (plan : Plan) (label : String) :
    (plan.addInputParameters label).isSome =
      (plan.input? label).any fun input => input.typeId.isSome := by
  rw [input?, List.find?_eq_bind_findIdx?_getElem?]
  rcases hp : plan.inputs.findIdx? fun input => input.label == label with _ | position
  · simp [addInputParameters, hp]
  · rcases hi : plan.inputs[position]? with _ | input
    · simp [addInputParameters, hp, hi]
    · rcases ht : input.typeId with _ | id <;> simp [addInputParameters, hp, hi, ht]

theorem isSome_useInput_eq (plan : Plan) (label : String) :
    (plan.useInput label).isSome =
      (plan.usable.find? fun entry => entry.1 == label).all Prod.snd := by
  have hfind : (plan.usable.find? fun entry => entry.1 == label) = (plan.input? label).map
      fun input => (input.label, input.typeParameter.isSome || input.typeId.isSome) := by
    rw [usable, List.find?_map]
    rfl
  have hadd := plan.isSome_addInputParameters_eq label
  rw [hfind, useInput]
  rcases hi : plan.input? label with _ | input
  · rfl
  · rw [hi] at hadd
    rcases ht : input.typeParameter with _ | position
    · simpa [ht] using hadd
    · simp [ht]

theorem useInput_eq_self {label : String} (h : label ∉ plan.usable.map Prod.fst) :
    plan.useInput label = some plan := by
  have hnone : plan.input? label = none := by
    refine List.find?_eq_none.mpr fun input hi => ?_
    rw [beq_iff_eq]
    rintro rfl
    exact h (List.mem_map.mpr ⟨_, List.mem_map_of_mem hi, rfl⟩)
  rw [useInput, hnone]

theorem usable_of_useInput {label : String} (h : plan.useInput label = some plan') :
    plan'.usable = plan.usable := by
  unfold useInput at h
  split at h
  · cases h
    rfl
  · split_ifs at h
    · obtain ⟨position, used, id, -, hget, hid, rfl⟩ := exists_of_addInputParameters h
      exact map_set_of_eq hget (by simp [hid])
    · cases h
      rfl

theorem usable_of_addGroup {opened : Plan} (h : plan.addGroup path = .ok (opened, path')) :
    opened.usable = plan.usable := by
  rw [usable, (addGroup_eq_ok h).2.1]
  rfl

end Plan

theorem Joined.Reaches.usable_eq {path : List Nat} {a b : Joined} {added : Plan.Group}
    (h : Joined.Reaches path a b added) : b.plan.usable = a.plan.usable := by
  induction h with
  | refl => rfl
  | trans _ _ ih ih' => exact ih'.trans ih
  | bind _ _ use _ _ chained =>
    refine Eq.trans ?_ (Plan.usable_of_useInput use)
    unfold Plan.usable
    rw [← chained.inputs_eq]
    split_ifs <;> rfl
  | forget _ ih => exact ih
  | group hg _ ih => exact ih.trans (Plan.usable_of_addGroup hg)

end FactGraph

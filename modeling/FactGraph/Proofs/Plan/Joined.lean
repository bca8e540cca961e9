import FactGraph.Proofs.Rows

/-! # What a compilation goes on from

A compilation goes on from a plan and the labels that are bound in it. It grows as its plan does; it
explains a condition on facts if the condition is met exactly where facts can be assigned to the new
slots so that the appended part holds, and the labels bound then read the facts of the environment.

* `Joined.Explains.trans`: parts that explain two conditions explain both of them together.
* `Joined.Explains.not_and`: nothing satisfies a condition and another one that is never met behind
  it. -/

namespace FactGraph.Joined

variable {Node : Type} {G : Graph Node} {R : Rows Node} {a b c old new : Joined}
  {first second added : Plan.Group} {path : List Nat} {inputs : List Plan.Input}
  {env env' env'' : Environment Node} {P Q : Prop}

/-! ### Growth -/

/-- The slots of the bound labels. -/
def slots (joined : Joined) : List Nat := joined.bindings.map fun binding => binding.2.slot

/-- What every compilation goes on from, when it started from some inputs. -/
structure Sound (inputs : List Plan.Input) (joined : Joined) : Prop where
  derives : joined.plan.DerivesFrom inputs
  inputs_le : ∀ input ∈ inputs, input.slot ≤ joined.plan.facts.length
  slots_le : ∀ s ∈ joined.slots, s ≤ joined.plan.facts.length
  settled : ∀ label fact, joined.bindings.lookup label = some fact →
    (∃ input ∈ inputs, input.label = label ∧ input.slot = fact.slot) ∨
      joined.plan.Settles fact.slot

/-- The plan has grown at a path, from the slots of the bound labels; further labels may be bound to
slots that the new part mentions. -/
structure Grows (path : List Nat) (old new : Joined) (added : Plan.Group) : Prop where
  plan : Plan.Grows path old.slots old.plan new.plan added
  kept : ∀ label fact, old.bindings.lookup label = some fact →
    new.bindings.lookup label = some fact
  slots : ∀ s ∈ new.slots, s ∈ old.slots ∨ s ∈ Plan.ends added.edges
  settled : ∀ label fact, new.bindings.lookup label = some fact →
    old.bindings.lookup label = some fact ∨ new.plan.Settles fact.slot

theorem mem_slots_of_lookup {joined : Joined} {label : String} {fact : Plan.Fact}
    (h : joined.bindings.lookup label = some fact) : fact.slot ∈ joined.slots := by
  obtain ⟨plan, bindings⟩ := joined
  unfold slots
  induction bindings with
  | nil => cases h
  | cons binding rest ih =>
    rw [List.lookup_cons] at h
    rw [List.map_cons]
    split at h
    · cases h
      exact List.mem_cons_self
    · exact List.mem_cons_of_mem _ (ih h)

theorem Sound.of_grows (hs : old.Sound inputs) (h : old.Grows path new added) :
    new.Sound inputs where
  derives := h.plan.derives inputs hs.derives
  inputs_le input hi := Nat.le_trans (hs.inputs_le input hi) h.plan.facts
  slots_le s hmem := by
    have hold : s ∈ old.slots → s ≤ new.plan.facts.length := fun hm =>
      Nat.le_trans (hs.slots_le s hm) h.plan.facts
    rcases h.slots s hmem with hm | hm
    · exact hold hm
    · exact (h.plan.slots s (Plan.Group.mem_slots_of_mem_ends hm)).elim hold And.right
  settled label fact hl := by
    rcases h.settled label fact hl with hl | hset
    · exact (hs.settled label fact hl).imp_right (h.plan.settles _)
    · exact Or.inr hset

theorem Grows.refl (joined : Joined) : joined.Grows path joined Plan.Group.empty where
  plan := Plan.Grows.refl joined.plan
  kept _ _ h := h
  slots _ h := Or.inl h
  settled _ _ h := Or.inl h

theorem Grows.trans (h : a.Grows path b first) (h' : b.Grows path c second) :
    a.Grows path c (first ++ second) where
  plan := h.plan.trans h'.plan fun s hs => (h.slots s hs).imp_right Plan.Group.mem_slots_of_mem_ends
  kept label fact hl := h'.kept label fact (h.kept label fact hl)
  slots s hs := by
    rw [Plan.Group.edges_append, Plan.ends_append, List.mem_append]
    rcases h'.slots s hs with hs | hs
    · exact (h.slots s hs).imp_right Or.inl
    · exact Or.inr (Or.inr hs)
  settled label fact hl := by
    rcases h'.settled label fact hl with hl | hset
    · exact (h.settled label fact hl).imp_right (h'.plan.settles _)
    · exact Or.inr hset

theorem Grows.forget (h : old.Grows path new added) :
    old.Grows path ⟨new.plan, old.bindings⟩ added where
  plan := h.plan
  kept _ _ hl := hl
  slots _ hs := Or.inl hs
  settled _ _ hl := Or.inl hl

/-! ### Facts in slots -/

/-- The facts in the slots of the bound labels have the types of the labels. -/
def Typed (G : Graph Node) (joined : Joined) (σ : Nat → Node) : Prop :=
  ∀ label fact, joined.bindings.lookup label = some fact → G.type (σ fact.slot) = fact.type

/-- The bound labels read the facts of an environment. -/
def Reads (joined : Joined) (σ : Nat → Node) (env : Environment Node) : Prop :=
  ∀ label fact, joined.bindings.lookup label = some fact → env.lookup label = some (σ fact.slot)

theorem Typed.congr {joined : Joined} {σ τ : Nat → Node} (h : joined.Typed G σ)
    (ha : Plan.Agree joined.slots τ σ) : joined.Typed G τ := by
  intro label fact hl
  rw [ha _ (mem_slots_of_lookup hl)]
  exact h label fact hl

theorem Reads.congr {joined : Joined} {σ τ : Nat → Node} (h : joined.Reads σ env)
    (ha : Plan.Agree joined.slots τ σ) : joined.Reads τ env := by
  intro label fact hl
  rw [ha _ (mem_slots_of_lookup hl)]
  exact h label fact hl

/-- Slots that a part may see: all that are bound, and no new ones. -/
structure Sees (joined : Joined) (outer : List Nat) : Prop where
  slots : joined.slots ⊆ outer
  le : ∀ s ∈ outer, s ≤ joined.plan.facts.length

theorem Sound.sees (hs : old.Sound inputs) : old.Sees old.slots := ⟨fun _ h => h, hs.slots_le⟩

theorem Sees.append {outer : List Nat} (h : a.Sees outer) (hg : a.Grows path b first) :
    b.Sees (outer ++ Plan.ends first.edges) where
  slots s hs := by
    rw [List.mem_append]
    exact (hg.slots s hs).imp_left fun hs => h.slots hs
  le s hs := by
    have hold : s ∈ outer → s ≤ b.plan.facts.length := fun hm =>
      Nat.le_trans (h.le s hm) hg.plan.facts
    rcases List.mem_append.mp hs with hs | hs
    · exact hold hs
    · rcases hg.plan.slots s (Plan.Group.mem_slots_of_mem_ends hs) with hs | hs
      · exact hold (h.slots hs)
      · exact hs.2

/-! ### Explanations -/

/-- Where the appended part holds, the facts in the slots of the bound labels have their types. -/
def KeepsTypes (G : Graph Node) (R : Rows Node) (old new : Joined) (added : Plan.Group) : Prop :=
  ∀ parameters, new.plan.parameters <+: parameters → ∀ (outer : List Nat) (σ τ : Nat → Node),
    old.Sees outer → old.Typed G σ → Plan.Agree outer τ σ →
      added.Holds R parameters outer τ → new.Typed G τ

/-- **A condition is met exactly where the appended part holds** for some facts in the new slots, and
the labels that are bound then read the facts of an environment. -/
def Explains (G : Graph Node) (R : Rows Node) (old new : Joined) (added : Plan.Group)
    (env env' : Environment Node) (P : Prop) : Prop :=
  ∀ parameters, new.plan.parameters <+: parameters → ∀ (outer : List Nat) (σ : Nat → Node),
    old.Sees outer → old.Typed G σ → old.Reads σ env →
      (P ↔ ∃ τ, Plan.Agree outer τ σ ∧ added.Holds R parameters outer τ ∧ new.Reads τ env')

theorem KeepsTypes.refl (joined : Joined) : KeepsTypes G R joined joined Plan.Group.empty :=
  fun _ _ _ _ _ hs ht ha _ => ht.congr (ha.mono hs.slots)

theorem Explains.refl (joined : Joined) :
    Explains G R joined joined Plan.Group.empty env env True := by
  intro parameters _ outer σ hs _ hr
  refine iff_of_true trivial ⟨σ, Plan.Agree.refl σ, ?_, hr⟩
  exact Plan.Group.holds_iff.mpr ⟨by simp [Plan.Group.empty], trivial⟩

/-- A slot of a first part that a second part joins is seen, or joined by the first part. -/
theorem Grows.mem_of_mem_ends (h : a.Grows path b first) (h' : b.Grows path c second)
    {outer : List Nat} (hs : a.Sees outer) {s : Nat} (hfirst : s ∈ first.slots)
    (hsecond : s ∈ Plan.ends second.edges) : s ∈ outer ∨ s ∈ Plan.ends first.edges := by
  rcases h'.plan.slots s (Plan.Group.mem_slots_of_mem_ends hsecond) with hs' | ⟨hlt, -⟩
  · exact (h.slots s hs').imp_left fun hm => hs.slots hm
  · -- the first part does not know the new slots of the second one
    rcases h.plan.slots s hfirst with hm | ⟨-, hle⟩
    · exact Or.inl (hs.slots hm)
    · omega

theorem holds_append_iff (h : a.Grows path b first) (h' : b.Grows path c second)
    {parameters : List Parameter} {outer : List Nat} (hs : a.Sees outer) {τ : Nat → Node} :
    (first ++ second).Holds R parameters outer τ ↔ first.Holds R parameters outer τ ∧
      second.Holds R parameters (outer ++ Plan.ends first.edges) τ :=
  Plan.Group.holds_append fun _ hfirst hsecond => h.mem_of_mem_ends h' hs hfirst hsecond

theorem holds_of_agree {parameters : List Parameter} {outer : List Nat} {τ σ : Nat → Node}
    (ha : Plan.Agree (outer ++ Plan.ends first.edges) τ σ) :
    first.Holds R parameters outer τ ↔ first.Holds R parameters outer σ :=
  Plan.Group.holds_congr first (fun _ _ => Iff.rfl) fun s _ hs => ha s (List.mem_append.mpr hs)

theorem KeepsTypes.trans (hg : a.Grows path b first) (hg' : b.Grows path c second)
    (h : KeepsTypes G R a b first) (h' : KeepsTypes G R b c second) :
    KeepsTypes G R a c (first ++ second) := by
  intro parameters hp outer σ τ hs ht ha hh
  rw [holds_append_iff hg hg' hs] at hh
  have hb := h parameters (hg'.plan.parameters.trans hp) outer σ τ hs ht ha hh.1
  exact h' parameters hp _ τ τ (hs.append hg) hb (Plan.Agree.refl τ) hh.2

/-- **Parts in sequence explain both conditions.** The later environment reads the labels that are
bound in between as the earlier one does. -/
theorem Explains.trans (hg : a.Grows path b first) (hg' : b.Grows path c second)
    (ht : KeepsTypes G R a b first) (h : Explains G R a b first env env' P)
    (h' : Explains G R b c second env' env'' Q)
    (henv : ∀ label fact, b.bindings.lookup label = some fact →
      env''.lookup label = env'.lookup label) :
    Explains G R a c (first ++ second) env env'' (P ∧ Q) := by
  intro parameters hp outer σ hs hty hr
  have hpb := hg'.plan.parameters.trans hp
  rw [h parameters hpb outer σ hs hty hr]
  constructor
  · rintro ⟨⟨τ, ha, hh, hrb⟩, hq⟩
    have htb := ht parameters hpb outer σ τ hs hty ha hh
    obtain ⟨υ, ha', hh', hrc⟩ := (h' parameters hp _ τ (hs.append hg) htb hrb).mp hq
    refine ⟨υ, (ha'.mono (List.subset_append_left _ _)).trans ha, ?_, hrc⟩
    rw [holds_append_iff hg hg' hs]
    exact ⟨(holds_of_agree ha').mpr hh, hh'⟩
  · rintro ⟨τ, ha, hh, hrc⟩
    rw [holds_append_iff hg hg' hs] at hh
    have hrb : b.Reads τ env' := fun label fact hl => by
      rw [← henv label fact hl]
      exact hrc label fact (hg'.kept label fact hl)
    have htb := ht parameters hpb outer σ τ hs hty ha hh.1
    exact ⟨⟨τ, ha, hh.1, hrb⟩, (h' parameters hp _ τ (hs.append hg) htb hrb).mpr
      ⟨τ, Plan.Agree.refl τ, hh.2, hrc⟩⟩

theorem Explains.not_and (hs : a.Sound inputs) (ht : KeepsTypes G R a b first)
    (h : Explains G R a b first env env' P)
    (hq : ∀ τ, b.Typed G τ → b.Reads τ env' → ¬ Q) {σ : Nat → Node} (hty : a.Typed G σ)
    (hr : a.Reads σ env) : ¬ (P ∧ Q) := by
  rintro ⟨hp, hq'⟩
  have hpre := List.prefix_refl b.plan.parameters
  obtain ⟨τ, ha, hh, hrb⟩ := (h _ hpre a.slots σ hs.sees hty hr).mp hp
  exact hq τ (ht _ hpre a.slots σ τ hs.sees hty ha hh) hrb hq'

end FactGraph.Joined

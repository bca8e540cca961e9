import FactGraph.Proofs.Plan.Paths

/-! # Joining matches

The induction over matches and conditions: whatever is joined is explained by the part of the plan
that it appends, and whatever is dropped is never satisfied. A positive existential condition is
explained by the part of its block; a negative one by a group that holds this part.

* `Match.joinAll_outcome`: what becomes of matches that are joined. -/

namespace FactGraph

variable {Node : Type} {G : Graph Node} {R : Rows Node} {schema : Schema} {hash : Node → String}
  {inputs : List Plan.Input} {path path' : List Nat} {scope inner : Scope} {old : Joined}
  {last : Option Joined} {block : List Match} {unknown : Label}

namespace Joined

/-- The unknowns of matches have been bound, and no other labels. -/
structure BindsAll (matches' : List Match) (old new : Joined) : Prop where
  bound : ∀ m ∈ matches', (new.bindings.lookup m.unknown.name).isSome = true
  names : ∀ label fact, new.bindings.lookup label = some fact →
    (∃ m ∈ matches', m.unknown.name = label) ∨ old.bindings.lookup label = some fact

/-- **What becomes of matches that are joined.** They are dropped if no facts satisfy them, or else a
part of the plan explains the facts that do, and all their unknowns are bound. -/
structure MatchesOutcome (G : Graph Node) (R : Rows Node) (path : List Nat) (scope : Scope)
    (old : Joined) (last : Option Joined) (matches' : List Match) : Prop where
  dropped : last = none → ∀ σ env facts, old.Typed G σ → old.Reads σ env →
    ¬ Match.SatisfiedBy G env matches' facts
  joined : ∀ new ∈ last, ∃ added, old.Grows path new added ∧ new.Within scope ∧
    KeepsTypes G R old new added ∧ BindsAll matches' old new ∧
    ∀ env facts, facts.length = matches'.length →
      Explains G R old new added env (env.bindAll matches' facts)
        (Match.SatisfiedBy G env matches' facts)

/-! ### Blocks -/

theorem exists_reads_bindAll {new : Joined} {τ : Nat → Node} : ∀ {matches' : List Match}
    {env : Environment Node},
    (∀ m ∈ matches', (new.bindings.lookup m.unknown.name).isSome = true) →
    (∀ label fact, new.bindings.lookup label = some fact →
      (∃ m ∈ matches', m.unknown.name = label) ∨ env.lookup label = some (τ fact.slot)) →
    ∃ facts, facts.length = matches'.length ∧ new.Reads τ (env.bindAll matches' facts)
  | [], env, _, hn => ⟨[], rfl, fun label fact hl => (hn label fact hl).resolve_left (by simp)⟩
  | m :: rest, env, hb, hn => by
    obtain ⟨slot, hslot⟩ := Option.isSome_iff_exists.mp (hb m List.mem_cons_self)
    have hrest : ∀ label fact, new.bindings.lookup label = some fact →
        (∃ other ∈ rest, other.unknown.name = label) ∨
          ((m.unknown.name, τ slot.slot) :: env).lookup label = some (τ fact.slot) := by
      intro label fact hl
      by_cases he : label = m.unknown.name
      · rw [he, hslot] at hl
        cases hl
        exact Or.inr (by simp [he])
      · rw [List.lookup_cons, beq_eq_false_iff_ne.mpr he]
        refine (hn label fact hl).imp_left ?_
        rintro ⟨other, ho, rfl⟩
        rcases List.mem_cons.mp ho with rfl | ho
        · exact absurd rfl he
        · exact ⟨other, ho, rfl⟩
    obtain ⟨facts, hlen, hr⟩ := exists_reads_bindAll
      (fun other ho => hb other (List.mem_cons_of_mem _ ho)) hrest
    exact ⟨τ slot.slot :: facts, by rw [List.length_cons, List.length_cons, hlen], hr⟩

/-- **A block can be satisfied exactly where its part matches.** -/
theorem exists_satisfiedBy_iff {old new : Joined} {added : Plan.Group} {block : List Match}
    (hbinds : BindsAll block old new) {env : Environment Node}
    (hexp : ∀ facts, facts.length = block.length → Explains G R old new added env
      (env.bindAll block facts) (Match.SatisfiedBy G env block facts))
    {parameters : List Parameter} (hp : new.plan.parameters <+: parameters) {outer : List Nat}
    {σ : Nat → Node} (hs : old.Sees outer) (ht : old.Typed G σ) (hr : old.Reads σ env) :
    (∃ facts, Match.SatisfiedBy G env block facts) ↔ added.Matches R parameters outer σ := by
  constructor
  · rintro ⟨facts, hsat⟩
    obtain ⟨τ, ha, hh, -⟩ := (hexp facts (Match.length_of_satisfiedBy hsat) parameters hp outer σ hs
      ht hr).mp hsat
    exact ⟨τ, ha, hh⟩
  · rintro ⟨τ, ha, hh⟩
    obtain ⟨facts, hlen, hread⟩ := exists_reads_bindAll hbinds.bound fun label fact hl =>
      (hbinds.names label fact hl).imp_right (hr.congr (ha.mono hs.slots) label fact)
    exact ⟨facts, (hexp facts hlen parameters hp outer σ hs ht hr).mpr ⟨τ, ha, hh, hread⟩⟩

theorem holds_group {parameters : List Parameter} {outer : List Nat} {σ : Nat → Node}
    {group : Plan.Group} : (⟨[], [group]⟩ : Plan.Group).Holds R parameters outer σ ↔
      ¬ group.Matches R parameters outer σ := by
  rw [Plan.Group.holds_iff, Plan.Group.noneMatches_singleton]
  simp [Plan.ends]

theorem matches_congr {parameters : List Parameter} {outer : List Nat} {σ τ : Nat → Node}
    {group : Plan.Group} (ha : Plan.Agree outer τ σ) :
    group.Matches R parameters outer τ ↔ group.Matches R parameters outer σ :=
  exists_congr fun _ => and_congr_left fun _ => ⟨fun h => h.trans ha, fun h => h.trans ha.symm⟩

/-! ### Existential conditions -/

theorem Sound.of_addGroup {old : Joined} {opened : Plan} {path path' : List Nat}
    (hs : old.Sound inputs) (h : old.plan.addGroup path = .ok (opened, path')) :
    Sound inputs ⟨opened, old.bindings⟩ := by
  obtain ⟨-, hi, hp, hf⟩ := Plan.addGroup_eq_ok h
  refine ⟨?_, hf ▸ hs.inputs_le, fun s hm => hf ▸ hs.slots_le s hm, fun label fact hl => ?_⟩
  · have := hs.derives
    unfold Plan.DerivesFrom at this ⊢
    rwa [hi, hp]
  · have := hs.settled label fact hl
    unfold Plan.Settles at this ⊢
    rwa [hi]

theorem Grows.of_addGroup {old new : Joined} {opened : Plan} {path path' : List Nat}
    {added : Plan.Group} (hg : old.plan.addGroup path = .ok (opened, path'))
    (h : Grows path' ⟨opened, old.bindings⟩ new added) :
    old.Grows path ⟨new.plan, old.bindings⟩ ⟨[], [added]⟩ where
  plan := h.plan.of_addGroup hg
  kept _ _ hl := hl
  slots _ hs := Or.inl hs
  settled _ _ hl := Or.inl hl

theorem KeepsTypes.of_bindings_eq {old : Joined} {plan : Plan} {added : Plan.Group} :
    KeepsTypes G R old ⟨plan, old.bindings⟩ added :=
  fun _ _ _ _ _ hs ht ha _ => ht.congr (ha.mono hs.slots)

theorem MatchesOutcome.positive (hw : old.Within scope)
    (h : MatchesOutcome G R path inner old last block) :
    Outcome G R path scope old (last.map fun new => ⟨new.plan, old.bindings⟩)
      fun env => (Condition.existential true block).Holds G env unknown := by
  simp only [Condition.Holds, true_iff]
  refine ⟨fun hn σ env ht hr => ?_, fun new hm => ?_⟩
  · rintro ⟨facts, hsat⟩
    exact h.dropped (by simpa using hn) σ env facts ht hr hsat
  · obtain ⟨final, hf, rfl⟩ := Option.map_eq_some_iff.mp hm
    obtain ⟨added, hg, -, -, hbinds, hexp⟩ := h.joined final hf
    refine ⟨added, hg.forget, hw, KeepsTypes.of_bindings_eq, ?_⟩
    intro env parameters hp outer σ hs ht hr
    rw [exists_satisfiedBy_iff hbinds (hexp env) hp hs ht hr]
    exact exists_congr fun τ => and_congr_right fun ha =>
      ⟨fun hh => ⟨hh, hr.congr (ha.mono hs.slots)⟩, And.left⟩

/-- A negative existential condition is met exactly where the group of its block does not match. It
is always met if its block is dropped. -/
theorem MatchesOutcome.negative {opened : Plan} (hw : old.Within scope)
    (hgroup : old.plan.addGroup path = .ok (opened, path'))
    (h : MatchesOutcome G R path' inner ⟨opened, old.bindings⟩ last block) :
    Outcome G R path scope old
      (some (last.elim old fun new => ⟨new.plan, old.bindings⟩))
      fun env => (Condition.existential false block).Holds G env unknown := by
  simp only [Condition.Holds, Bool.false_eq_true, false_iff]
  refine ⟨(by rintro ⟨⟩), fun new hm => ?_⟩
  cases hm
  rcases last with _ | final
  · refine ⟨Plan.Group.empty, Grows.refl old, hw, KeepsTypes.refl old, fun env => ?_⟩
    intro parameters hp outer σ hs ht hr
    have hnever : ¬ ∃ facts, Match.SatisfiedBy G env block facts := by
      rintro ⟨facts, hsat⟩
      exact h.dropped rfl σ env facts ht hr hsat
    exact (iff_true_intro hnever).trans (Explains.refl old parameters hp outer σ hs ht hr)
  · obtain ⟨added, hg, -, -, hbinds, hexp⟩ := h.joined final rfl
    refine ⟨⟨[], [added]⟩, hg.of_addGroup hgroup, hw, KeepsTypes.of_bindings_eq, fun env => ?_⟩
    intro parameters hp outer σ hs ht hr
    have hopened : Sees ⟨opened, old.bindings⟩ outer :=
      ⟨hs.slots, (Plan.addGroup_eq_ok hgroup).2.2.2 ▸ hs.le⟩
    rw [exists_satisfiedBy_iff hbinds (hexp env) hp hopened ht hr]
    simp only [holds_group]
    constructor
    · exact fun hn => ⟨σ, Plan.Agree.refl σ, hn, hr⟩
    · rintro ⟨τ, ha, hn, -⟩
      rwa [matches_congr ha] at hn

/-! ### Sequences of conditions -/

theorem Outcome.and {a : Joined} {middle last : Option Joined} {P Q : Environment Node → Prop}
    (hs : a.Sound inputs) (h : Outcome G R path scope a middle P)
    (hnone : middle = none → last = none)
    (hrest : ∀ b ∈ middle, Outcome G R path scope b last Q) :
    Outcome G R path scope a last fun env => P env ∧ Q env := by
  rcases middle with _ | b
  · rw [hnone rfl]
    refine ⟨fun _ σ env ht hr hpq => h.dropped rfl σ env ht hr hpq.1, fun _ hm => by cases hm⟩
  · obtain ⟨first, hg, -, hk, hexp⟩ := h.joined b rfl
    have hb := hrest b rfl
    refine ⟨fun hn σ env ht hr => ?_, fun new hm => ?_⟩
    · exact (hexp env).not_and hs hk (fun τ => hb.dropped hn τ env) ht hr
    · obtain ⟨second, hg', hw, hk', hexp'⟩ := hb.joined new hm
      exact ⟨_, hg.trans hg', hw, hk.trans hg hg' hk', fun env =>
        (hexp env).trans hg hg' hk (hexp' env) fun _ _ _ => rfl⟩

end Joined

/-! ### What is bound on the way -/

theorem Branch.andThen_eq_ok {branch result : Branch} {next : Joined → Except PlanError Branch}
    (h : branch.andThen next = .ok result) :
    (branch.last = none → result.last = none) ∧
      ∀ joined ∈ branch.last, ∃ rest, next joined = .ok rest ∧ rest.last = result.last := by
  unfold Branch.andThen at h
  rcases hl : branch.last with _ | joined <;> simp only [hl] at h
  · cases h
    exact ⟨fun _ => hl, fun _ hm => by cases hm⟩
  · obtain ⟨rest, hr, h⟩ := Except.bind_eq_ok_iff.mp h
    cases h
    refine ⟨(by rintro ⟨⟩), fun other hm => ?_⟩
    cases hm
    exact ⟨rest, hr, rfl⟩

/-- Conditions on an unknown bind it if there is a path condition among them, and no other label. -/
def Joined.Binds (unknown : Label) (conditions : List Condition) (old new : Joined) : Prop :=
  if Match.paths ⟨unknown, conditions⟩ = [] then new.bindings = old.bindings
  else ∃ fact, new.bindings = (unknown.name, fact) :: old.bindings

theorem Match.paths_cons {condition : Condition} {rest : List Condition} :
    Match.paths ⟨unknown, condition :: rest⟩ =
      Match.paths ⟨unknown, [condition]⟩ ++ Match.paths ⟨unknown, rest⟩ := by
  cases condition <;> simp [Match.paths]

theorem Match.paths_cons_eq_nil_iff {condition : Condition} {rest : List Condition} :
    Match.paths ⟨unknown, condition :: rest⟩ = [] ↔
      Match.paths ⟨unknown, [condition]⟩ = [] ∧ Match.paths ⟨unknown, rest⟩ = [] := by
  rw [Match.paths_cons, List.append_eq_nil_iff]

theorem Joined.Binds.cons {condition : Condition} {rest : List Condition} {a b c : Joined}
    (hone : (Match.paths ⟨unknown, condition :: rest⟩).length ≤ 1)
    (h : Joined.Binds unknown [condition] a b) (h' : Joined.Binds unknown rest b c) :
    Joined.Binds unknown (condition :: rest) a c := by
  have hnil := @Match.paths_cons_eq_nil_iff unknown condition rest
  rw [Match.paths_cons, List.length_append] at hone
  unfold Joined.Binds at h h' ⊢
  split_ifs at h h' with hc hr hr
  · rw [if_pos (hnil.mpr ⟨hc, hr⟩), h', h]
  · rw [if_neg fun hn => hr (hnil.mp hn).2]
    rwa [h] at h'
  · rw [if_neg fun hn => hc (hnil.mp hn).1]
    rwa [h']
  · have := List.length_pos_iff.mpr hc
    have := List.length_pos_iff.mpr hr
    omega

theorem Joined.Binds.lookup_eq_none {condition : Condition} {rest : List Condition} {a b : Joined}
    (hone : (Match.paths ⟨unknown, condition :: rest⟩).length ≤ 1)
    (h : Joined.Binds unknown [condition] a b) (hne : Match.paths ⟨unknown, rest⟩ ≠ [])
    (hfresh : a.bindings.lookup unknown.name = none) : b.bindings.lookup unknown.name = none := by
  have hpos := List.length_pos_iff.mpr hne
  rw [Match.paths_cons, List.length_append] at hone
  have hnil : Match.paths ⟨unknown, [condition]⟩ = [] := List.eq_nil_of_length_eq_zero (by omega)
  rw [Joined.Binds, if_pos hnil] at h
  rwa [h]

/-- A fact that satisfies the path condition of a match has the type of the unknown. -/
theorem Condition.type_of_allHold {env : Environment Node} {unknown : Label} {f : Node} :
    ∀ {conditions : List Condition}, Match.paths ⟨unknown, conditions⟩ ≠ [] →
      Condition.AllHold G ((unknown.name, f) :: env) unknown conditions → G.type f = unknown.type
  | [], hne, _ => absurd rfl hne
  | .path condition :: rest, _, h => by
    obtain ⟨f', _, _, hf, -, hl, -⟩ := h.1
    rw [List.lookup_cons_self] at hf
    cases hf
    exact hl.type_start
  | .existential _ _ :: rest, hne, h => by
    rw [Match.paths_cons] at hne
    exact Condition.type_of_allHold (by simpa [Match.paths] using hne) h.2

theorem Environment.lookup_bindAll : ∀ {matches' : List Match} {scope scope' : Scope}
    {env : Environment Node} {facts : List Node}, Match.checkAll scope matches' = .ok scope' →
    ∀ {label type : String}, scope.type? label = some type →
      (env.bindAll matches' facts).lookup label = env.lookup label
  | [], _, _, _, _, _, _, _, _ => by simp [Environment.bindAll]
  | _ :: _, _, _, _, [], _, _, _, _ => by simp [Environment.bindAll]
  | m :: rest, scope, _, env, f :: others, h, label, type, ht => by
    obtain ⟨hnew, -, -, hrest⟩ := Match.checkAll_cons_eq_ok_iff.mp h
    have hne : label ≠ m.unknown.name := fun he => by
      rw [he, hnew] at ht
      cases ht
    rw [Environment.bindAll, Environment.lookup_bindAll hrest
      ((Scope.type?_bind_of_ne hne).trans ht), List.lookup_cons, beq_eq_false_iff_ne.mpr hne]

/-! ### Sequences of matches -/

namespace Joined

variable {conditions : List Condition} {rest : List Match}

theorem Within.bind {joined : Joined} (hw : joined.Within scope)
    (hnew : scope.type? unknown.name = none) : joined.Within (scope.bind unknown) := by
  intro label fact hl
  have ht := hw label fact hl
  rwa [Scope.type?_bind_of_ne]
  rintro rfl
  rw [hnew] at ht
  cases ht

theorem Within.lookup_eq_none {joined : Joined} (hw : joined.Within scope)
    (hnew : scope.type? unknown.name = none) : joined.bindings.lookup unknown.name = none := by
  rcases hl : joined.bindings.lookup unknown.name with _ | fact
  · rfl
  · rw [hw _ _ hl] at hnew
    cases hnew

theorem Reads.cons {joined : Joined} {σ : Nat → Node} {env : Environment Node} {name : String}
    {f : Node} (hr : joined.Reads σ env) (hfresh : joined.bindings.lookup name = none) :
    joined.Reads σ ((name, f) :: env) := by
  intro label fact hl
  have hne : label ≠ name := fun he => by
    rw [he, hfresh] at hl
    cases hl
  rw [List.lookup_cons, beq_eq_false_iff_ne.mpr hne]
  exact hr label fact hl

theorem MatchesOutcome.nil (hw : old.Within scope) :
    MatchesOutcome G R path scope old (some old) [] := by
  refine ⟨(by rintro ⟨⟩), fun new hm => ?_⟩
  cases hm
  refine ⟨Plan.Group.empty, Grows.refl old, hw, KeepsTypes.refl old,
    ⟨by simp, fun _ _ hl => Or.inr hl⟩, fun env facts hlen => ?_⟩
  obtain rfl := List.eq_nil_of_length_eq_zero hlen
  intro parameters hp outer σ hs ht hr
  exact (iff_true_intro rfl).trans (Explains.refl old parameters hp outer σ hs ht hr)

theorem Explains.of_conditions {new : Joined} {added : Plan.Group} {env : Environment Node}
    {f : Node} (hfresh : old.bindings.lookup unknown.name = none)
    (hpaths : Match.paths ⟨unknown, conditions⟩ ≠ [])
    (h : Explains G R old new added ((unknown.name, f) :: env) ((unknown.name, f) :: env)
      (Condition.AllHold G ((unknown.name, f) :: env) unknown conditions)) :
    Explains G R old new added env ((unknown.name, f) :: env) (G.type f = unknown.type ∧
      Condition.AllHold G ((unknown.name, f) :: env) unknown conditions) := by
  intro parameters hp outer σ hs ht hr
  rw [and_iff_right_of_imp (Condition.type_of_allHold hpaths)]
  exact h parameters hp outer σ hs ht (hr.cons hfresh)

theorem BindsAll.cons {a b c : Joined} {fact : Plan.Fact}
    (hbound : b.bindings = (unknown.name, fact) :: a.bindings)
    (hkept : ∀ label fact, b.bindings.lookup label = some fact →
      c.bindings.lookup label = some fact)
    (h : BindsAll rest b c) : BindsAll (⟨unknown, conditions⟩ :: rest) a c where
  bound m hm := by
    rcases List.mem_cons.mp hm with rfl | hm
    · rw [hkept unknown.name fact (by simp [hbound])]
      rfl
    · exact h.bound m hm
  names label other hl := by
    rcases h.names label other hl with ⟨m, hm, hn⟩ | hl
    · exact Or.inl ⟨m, List.mem_cons_of_mem _ hm, hn⟩
    · rw [hbound, List.lookup_cons] at hl
      split at hl
      · rename_i he
        exact Or.inl ⟨_, List.mem_cons_self, (beq_iff_eq.mp he).symm⟩
      · exact Or.inr hl

theorem MatchesOutcome.cons {a : Joined} {middle : Option Joined} (hs : a.Sound inputs)
    (hfresh : a.bindings.lookup unknown.name = none)
    (hpaths : Match.paths ⟨unknown, conditions⟩ ≠ [])
    (h : Outcome G R path (scope.bind unknown) a middle
      fun env => Condition.AllHold G env unknown conditions)
    (hb : ∀ b ∈ middle, a.Binds unknown conditions b) (hnone : middle = none → last = none)
    (hc : Match.checkAll (scope.bind unknown) rest = .ok inner)
    (hrest : ∀ b ∈ middle, MatchesOutcome G R path inner b last rest) :
    MatchesOutcome G R path inner a last (⟨unknown, conditions⟩ :: rest) := by
  rcases middle with _ | b
  · rw [hnone rfl]
    refine ⟨fun _ σ env facts ht hr => ?_, fun _ hm => by cases hm⟩
    rintro ⟨f, others, -, -, hall, -⟩
    exact h.dropped rfl σ _ ht (hr.cons hfresh) hall
  · obtain ⟨first, hg, hw, hk, hexp⟩ := h.joined b rfl
    have hfirst : ∀ env f, Explains G R a b first env ((unknown.name, f) :: env) _ := fun env f =>
      Explains.of_conditions hfresh hpaths (hexp ((unknown.name, f) :: env))
    obtain ⟨fact, hbound⟩ : ∃ fact, b.bindings = (unknown.name, fact) :: a.bindings := by
      have := hb b rfl
      rwa [Binds, if_neg hpaths] at this
    have hnext := hrest b rfl
    refine ⟨fun hn σ env facts ht hr => ?_, fun new hm => ?_⟩
    · rintro ⟨f, others, -, htf, hall, hsat⟩
      exact (hfirst env f).not_and hs hk (fun τ hbt hbr => hnext.dropped hn τ _ others hbt hbr) ht hr
        ⟨⟨htf, hall⟩, hsat⟩
    · obtain ⟨second, hg', hw', hk', hbinds, hexp'⟩ := hnext.joined new hm
      refine ⟨first ++ second, hg.trans hg', hw', hk.trans hg hg' hk', hbinds.cons hbound hg'.kept,
        fun env facts hlen => ?_⟩
      obtain ⟨f, others, rfl⟩ := List.exists_cons_of_length_eq_add_one hlen
      rw [Match.satisfiedBy_cons_iff]
      refine (hfirst env f).trans hg hg' hk (hexp' _ others (by simpa using hlen)) ?_
      exact fun label other hl => Environment.lookup_bindAll hc (hw label other hl)

end Joined

/-! ### The induction -/

mutual

theorem Condition.join_outcome (hk : schema.Knows G) (hstart : Plan.StartInputs inputs)
    {stem : String} : ∀ (condition : Condition) {path : List Nat} {scope : Scope} {unknown : Label}
    {joined : Joined} {branch : Branch}, joined.Sound inputs → joined.Within scope →
    scope.type? unknown.name = some unknown.type →
    (Match.paths ⟨unknown, [condition]⟩ ≠ [] → joined.bindings.lookup unknown.name = none) →
    condition.check scope unknown = .ok () → G.Obeys (condition.mentions scope unknown) →
    condition.join schema stem path unknown joined = .ok branch →
    Joined.Outcome G (G.rows schema hash) path scope joined branch.last
        (fun env => condition.Holds G env unknown) ∧
      ∀ new ∈ branch.last, joined.Binds unknown [condition] new
  | .path condition, path, scope, unknown, joined, branch, hs, hw, hu, hfresh, hc, ho, h => by
    have hpaths : Match.paths ⟨unknown, [.path condition]⟩ ≠ [] := by simp [Match.paths]
    obtain ⟨houtcome, hbound⟩ :=
      PathCondition.join_outcome hk hstart hs hw hu (hfresh hpaths) hc ho h
    refine ⟨houtcome, fun new hm => ?_⟩
    rw [Joined.Binds, if_neg hpaths]
    exact hbound new hm
  | .existential true block, path, scope, unknown, joined, branch, hs, hw, _, _, hc, ho, h => by
    obtain ⟨inner, hc⟩ := Condition.check_existential_eq_ok_iff.mp hc
    obtain ⟨found, hf, h⟩ := Except.bind_eq_ok_iff.mp h
    cases h
    have hblock := Match.joinAll_outcome hk hstart block hs hw hc ho hf
    refine ⟨hblock.positive hw, fun new hm => ?_⟩
    obtain ⟨last, -, rfl⟩ := Option.map_eq_some_iff.mp hm
    rfl
  | .existential false block, path, scope, unknown, joined, branch, hs, hw, _, _, hc, ho, h => by
    obtain ⟨inner, hc⟩ := Condition.check_existential_eq_ok_iff.mp hc
    obtain ⟨failing, -, h⟩ := Except.bind_eq_ok_iff.mp h
    obtain ⟨⟨opened, path'⟩, hg, h⟩ := Except.bind_eq_ok_iff.mp h
    obtain ⟨absent, ha, h⟩ := Except.bind_eq_ok_iff.mp h
    have hblock := Match.joinAll_outcome hk hstart block (hs.of_addGroup hg) hw hc ho ha
    have hlast : branch.last =
        some (absent.last.elim joined fun new => ⟨new.plan, joined.bindings⟩) := by
      rcases hl : absent.last with _ | last <;> simp only [hl] at h <;> cases h <;> rfl
    rw [hlast]
    refine ⟨hblock.negative hw hg, fun new hm => ?_⟩
    cases hm
    cases absent.last <;> rfl

/-- What becomes of conditions that are joined, at most one of them a path condition. -/
theorem Condition.joinAll_outcome (hk : schema.Knows G) (hstart : Plan.StartInputs inputs)
    {stem : String} : ∀ (conditions : List Condition) {path : List Nat} {scope : Scope}
    {unknown : Label} {joined : Joined} {branch : Branch}, joined.Sound inputs →
    joined.Within scope → scope.type? unknown.name = some unknown.type →
    (Match.paths ⟨unknown, conditions⟩).length ≤ 1 →
    (Match.paths ⟨unknown, conditions⟩ ≠ [] → joined.bindings.lookup unknown.name = none) →
    Condition.checkAll scope unknown conditions = .ok () →
    G.Obeys (Condition.mentionsAll scope unknown conditions) →
    Condition.joinAll schema stem path unknown joined conditions = .ok branch →
    Joined.Outcome G (G.rows schema hash) path scope joined branch.last
        (fun env => Condition.AllHold G env unknown conditions) ∧
      ∀ new ∈ branch.last, joined.Binds unknown conditions new
  | [], path, scope, unknown, joined, branch, hs, hw, _, _, _, _, _, h => by
    cases h
    refine ⟨⟨(by rintro ⟨⟩), fun new hm => ?_⟩, fun new hm => ?_⟩
    · cases hm
      exact ⟨_, Joined.Grows.refl joined, hw, Joined.KeepsTypes.refl joined,
        fun env => Joined.Explains.refl joined⟩
    · cases hm
      rfl
  | condition :: rest, path, scope, unknown, joined, branch, hs, hw, hu, hone, hfresh, hc, ho,
    h => by
    obtain ⟨hc, hcrest⟩ := Except.bind_unit_eq_ok_iff.mp hc
    obtain ⟨ho, horest⟩ := Graph.obeys_append.mp ho
    obtain ⟨middle, hm, h⟩ := Except.bind_eq_ok_iff.mp h
    obtain ⟨hnone, hnext⟩ := Branch.andThen_eq_ok h
    obtain ⟨hfirst, hbinds⟩ := Condition.join_outcome hk hstart condition hs hw hu
      (fun hne => hfresh fun hnil => hne (Match.paths_cons_eq_nil_iff.mp hnil).1) hc ho hm
    have hlength : (Match.paths ⟨unknown, rest⟩).length ≤ 1 := by
      rw [Match.paths_cons, List.length_append] at hone
      omega
    have hothers : ∀ b ∈ middle.last, Joined.Outcome G (G.rows schema hash) path scope b branch.last
          (fun env => Condition.AllHold G env unknown rest) ∧
        ∀ new ∈ branch.last, b.Binds unknown rest new := by
      intro b hb
      obtain ⟨found, hf, hl⟩ := hnext b hb
      obtain ⟨first, hg, hwb, -, -⟩ := hfirst.joined b hb
      rw [← hl]
      refine Condition.joinAll_outcome hk hstart rest (hs.of_grows hg) hwb hu hlength ?_ hcrest
        horest hf
      exact fun hne => (hbinds b hb).lookup_eq_none hone hne
        (hfresh fun hnil => hne (Match.paths_cons_eq_nil_iff.mp hnil).2)
    refine ⟨hfirst.and hs hnone fun b hb => (hothers b hb).1, fun new hnew => ?_⟩
    rcases hb : middle.last with _ | b
    · rw [hnone hb] at hnew
      cases hnew
    · exact (hbinds b hb).cons hone ((hothers b hb).2 new hnew)

/-- **What becomes of matches that are joined.** -/
theorem Match.joinAll_outcome (hk : schema.Knows G) (hstart : Plan.StartInputs inputs)
    {stem : String} : ∀ (matches' : List Match) {path : List Nat} {scope scope' : Scope}
    {joined : Joined} {branch : Branch}, joined.Sound inputs → joined.Within scope →
    Match.checkAll scope matches' = .ok scope' → G.Obeys (Match.mentionsAll scope matches') →
    Match.joinAll schema stem path joined matches' = .ok branch →
    Joined.MatchesOutcome G (G.rows schema hash) path scope' joined branch.last matches'
  | [], path, scope, scope', joined, branch, hs, hw, hc, _, h => by
    cases hc
    cases h
    exact Joined.MatchesOutcome.nil hw
  | ⟨unknown, conditions⟩ :: rest, path, scope, scope', joined, branch, hs, hw, hc, ho, h => by
    obtain ⟨hnew, hone, hc, hcrest⟩ := Match.checkAll_cons_eq_ok_iff.mp hc
    obtain ⟨ho, horest⟩ := Graph.obeys_append.mp ho
    obtain ⟨middle, hm, h⟩ := Except.bind_eq_ok_iff.mp h
    obtain ⟨hnone, hnext⟩ := Branch.andThen_eq_ok h
    have hfresh := hw.lookup_eq_none hnew
    have hpaths : Match.paths ⟨unknown, conditions⟩ ≠ [] := fun hnil => by
      rw [hnil] at hone
      cases hone
    obtain ⟨hfirst, hbinds⟩ := Condition.joinAll_outcome hk hstart conditions hs (hw.bind hnew)
      Scope.type?_bind_self (Nat.le_of_eq hone) (fun _ => hfresh) hc
      (fun d hd => ho d (List.mem_cons_of_mem _ hd)) hm
    refine Joined.MatchesOutcome.cons hs hfresh hpaths hfirst hbinds hnone hcrest fun b hb => ?_
    obtain ⟨found, hf, hl⟩ := hnext b hb
    obtain ⟨first, hg, hwb, -, -⟩ := hfirst.joined b hb
    rw [← hl]
    exact Match.joinAll_outcome hk hstart rest (hs.of_grows hg) hwb hcrest horest hf

end

end FactGraph

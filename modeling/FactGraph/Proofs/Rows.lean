import FactGraph.Proofs.Catalog.Tables
import FactGraph.Proofs.Plan.Chains
import FactGraph.Proofs.Specification.Meaning

/-! # Graphs as stored rows

Facts and edges are stored under the numbers that a catalog gives to their types and roles. If the
catalog knows all types and roles of a graph, and tells them apart, then the rows of an edge say which
type declares its role, and roles lead up in the graph exactly as their numbers do in the rows.

* `Graph.climbs_iff_up`: roles and their numbers lead to the same facts.
* `Graph.not_climbs`: roles that the catalog does not know lead nowhere. -/

namespace FactGraph

variable {Node : Type} {G : Graph Node} {schema : Schema} {hash : Node → String}

/-- A catalog knows the types and roles of a graph, and gives different ones different numbers. -/
structure Schema.Knows (schema : Schema) (G : Graph Node) : Prop where
  types : ∀ f, (schema.factTypeId (G.type f)).isSome = true
  roles : ∀ f role g, G.edge f role g → (schema.roleOf (G.type f) role).isSome = true
  types_injective : ∀ type type' id, schema.factTypeId type = some id →
    schema.factTypeId type' = some id → type = type'
  roles_injective : ∀ type role type' role' id, schema.roleOf type role = some id →
    schema.roleOf type' role' = some id → type = type' ∧ role = role'

theorem Catalog.roleOf_injective {catalog : Catalog} (ht : (catalog.factTypes.map Prod.snd).Nodup)
    (hr : (catalog.roles.map Prod.snd).Nodup) {type role type' role' : String} {id : Int}
    (h : catalog.schema.roleOf type role = some id)
    (h' : catalog.schema.roleOf type' role' = some id) : type = type' ∧ role = role' := by
  obtain ⟨typeId, hid, hrole⟩ := Option.bind_eq_some_iff.mp h
  obtain ⟨typeId', hid', hrole'⟩ := Option.bind_eq_some_iff.mp h'
  have hkeys : (typeId, role) = (typeId', role') := congrArg Prod.fst
    (List.inj_on_of_nodup_map hr (mem_roles_of_roleId hrole) (mem_roles_of_roleId hrole') rfl)
  cases hkeys
  exact ⟨lookup_injective ht hid hid', rfl⟩

theorem Catalog.knows {catalog : Catalog} (ht : (catalog.factTypes.map Prod.snd).Nodup)
    (hr : (catalog.roles.map Prod.snd).Nodup)
    (htypes : ∀ f, (catalog.factTypeId (G.type f)).isSome = true)
    (hroles : ∀ f role g, G.edge f role g → (catalog.schema.roleOf (G.type f) role).isSome = true) :
    catalog.schema.Knows G where
  types := htypes
  roles := hroles
  types_injective _ _ _ h h' := lookup_injective ht h h'
  roles_injective _ _ _ _ _ h h' := Catalog.roleOf_injective ht hr h h'

/-- The rows under which a graph is stored whose facts have hashes. -/
def Graph.rows (G : Graph Node) (schema : Schema) (hash : Node → String) : Rows Node where
  typeId f := schema.factTypeId (G.type f)
  hash := hash
  edge id f g := ∃ role, schema.roleOf (G.type f) role = some id ∧ G.edge f role g

namespace Graph

theorem rows_edge_iff (hk : schema.Knows G) {type role : String} {id : Int}
    (hr : schema.roleOf type role = some id) {f g : Node} :
    (G.rows schema hash).edge id f g ↔ G.type f = type ∧ G.edge f role g := by
  constructor
  · rintro ⟨role', hr', he⟩
    obtain ⟨ht, rfl⟩ := hk.roles_injective _ _ _ _ _ hr' hr
    exact ⟨ht, he⟩
  · rintro ⟨rfl, he⟩
    exact ⟨role, hr, he⟩

theorem resolveRoles_cons {type : String} {role : Role} {rest : List Role}
    {ids : List (Int × String)} (h : resolveRoles schema type (role :: rest) = some ids) :
    ∃ id others, schema.roleOf type role.name = some id ∧
      resolveRoles schema role.target rest = some others ∧ ids = (id, type) :: others := by
  simp only [resolveRoles, Option.bind_eq_bind, Option.bind_eq_some_iff, Option.pure_def,
    Option.some_inj] at h
  obtain ⟨id, hr, others, ho, rfl⟩ := h
  exact ⟨id, others, hr, ho, rfl⟩

/-- **Roles lead up from a fact of their type exactly as their numbers do.** -/
theorem climbs_iff_up (hk : schema.Knows G) : ∀ {roles : List Role} {type : String}
    {ids : List (Int × String)}, resolveRoles schema type roles = some ids →
    G.Obeys (mentionedInRoles type roles) → ∀ {f top : Node}, G.type f = type →
      (G.Climbs type f roles top ↔ (G.rows schema hash).Up (ids.map Prod.fst) f top)
  | [], type, ids, h, _, f, top, hf => by
    cases h
    simp [Graph.Climbs, Rows.Up, hf]
  | role :: rest, type, ids, h, ho, f, top, hf => by
    obtain ⟨id, others, hr, hrest, rfl⟩ := resolveRoles_cons h
    obtain ⟨htarget, horest⟩ := obeys_roles ho
    simp only [Graph.Climbs, List.map_cons, Rows.Up, rows_edge_iff hk hr, hf, true_and]
    refine exists_congr fun g => and_congr_right fun he => ?_
    exact climbs_iff_up hk hrest horest (htarget f g he hf)

theorem type_of_up (hk : schema.Knows G) {roles : List Role} {type : String}
    {ids : List (Int × String)} (h : resolveRoles schema type roles = some ids) (hne : roles ≠ [])
    {f top : Node} (hu : (G.rows schema hash).Up (ids.map Prod.fst) f top) : G.type f = type := by
  obtain ⟨role, rest, rfl⟩ := List.exists_cons_of_ne_nil hne
  obtain ⟨id, others, hr, -, rfl⟩ := resolveRoles_cons h
  obtain ⟨g, he, -⟩ := hu
  exact ((rows_edge_iff hk hr).mp he).1

/-- **Roles that the catalog does not know lead nowhere.** -/
theorem not_climbs (hk : schema.Knows G) : ∀ {roles : List Role} {type : String},
    resolveRoles schema type roles = none → ∀ {f top : Node}, ¬ G.Climbs type f roles top
  | [], _, h, _, _, _ => by cases h
  | role :: rest, type, h, f, top, ⟨hf, g, he, hc⟩ => by
    obtain ⟨id, hr⟩ := Option.isSome_iff_exists.mp (hk.roles f role.name g he)
    rw [hf] at hr
    rcases hrest : resolveRoles schema role.target rest with _ | others
    · exact not_climbs hk hrest hc
    · simp [resolveRoles, hr, hrest] at h

end Graph

end FactGraph

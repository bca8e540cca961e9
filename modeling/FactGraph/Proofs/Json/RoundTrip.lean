import FactGraph.Distribution.Encoding
import FactGraph.Proofs.Json.Laws
import FactGraph.Reference
import FactGraph.Specification.Encoding
import FactGraph.Statement.Encoding
import FactGraph.Walk.Encoding

/-! # Round trips through JSON

Every kind of value that is written as JSON is read back from what is written. Numbers are written
whatever their size, and read if they fit in 64 bits. Values inside of others are read below a bound
on their height, which what is written for them keeps.

* `Specification.roundTrips`, `Walk.roundTrips`, `Plan.roundTrips`: values of unbounded depth.
* `Parameter.roundTrips`: values that are told apart by their form only.
* `Json.roundTrips_all`: all kinds of values. -/

namespace FactGraph

open Json (RoundTrips FitsInt64 FitsNat64 string?_string bool?_bool record?_bind required_bind
  nullable_bind tagged?_bind)

/-! ### References and bookmarks -/

theorem FactReference.roundTrips :
    RoundTrips FactReference.toJson FactReference.ofJson? fun _ => True where
  read _ := by
    rw [ofJson?, toJson, record?_bind (by rfl) (by decide), required_bind rfl (string?_string _),
      required_bind rfl (string?_string _)]
    rfl
  fits _ := trivial

/-- The ids of a bookmark fit in 64 bits. -/
def FactBookmark.Fits (bookmark : FactBookmark) : Prop := ∀ id ∈ bookmark.factIds, FitsInt64 id

theorem FactBookmark.roundTrips :
    RoundTrips FactBookmark.toJson FactBookmark.ofJson? FactBookmark.Fits where
  read h := by rw [ofJson?, toJson, Json.roundTrips_int64.list.read h, Option.map_some]
  fits h := by
    obtain ⟨ids, hids, rfl⟩ := Option.map_eq_some_iff.mp h
    exact Json.roundTrips_int64.list.fits hids

/-! ### Parameters and statements -/

/-- The integers of a parameter fit in 64 bits. -/
def Parameter.Fits : Parameter → Prop
  | .integer value => FitsInt64 value
  | .text _ => True
  | .integers values => ∀ value ∈ values, FitsInt64 value

/-- **A parameter is told apart by what it is written as**: a number, a string or a list. -/
theorem Parameter.roundTrips : RoundTrips Parameter.toJson Parameter.ofJson? Parameter.Fits where
  read {parameter} h := by
    cases parameter with
    | integer value => exact congrArg (Option.map integer) (Json.roundTrips_int64.read h)
    | text value => rfl
    | integers values => exact congrArg (Option.map integers) (Json.roundTrips_int64.list.read h)
  fits {value parameter} h := by
    cases value with
    | integer n =>
      obtain ⟨m, hm, rfl⟩ := Option.map_eq_some_iff.mp h
      exact Json.roundTrips_int64.fits hm
    | string text =>
      cases h
      trivial
    | array items =>
      obtain ⟨values, hv, rfl⟩ := Option.map_eq_some_iff.mp h
      exact Json.roundTrips_int64.list.fits hv
    | _ => cases h

theorem ResultColumn.roundTrips :
    RoundTrips ResultColumn.toJson ResultColumn.ofJson? fun _ => True where
  read _ := by
    rw [ofJson?, toJson, record?_bind (by rfl) (by decide), required_bind rfl (string?_string _),
      required_bind rfl (string?_string _), required_bind rfl (string?_string _)]
    rfl
  fits _ := trivial

/-- The integers among the parameters of a query fit in 64 bits. -/
def SqlQuery.Fits (query : SqlQuery) : Prop := ∀ parameter ∈ query.parameters, parameter.Fits

theorem SqlQuery.roundTrips : RoundTrips SqlQuery.toJson SqlQuery.ofJson? SqlQuery.Fits where
  read {query} h := by
    have hparameters := Parameter.roundTrips.list.read h
    have hcolumns := ResultColumn.roundTrips.list.read (a := query.columns) fun _ _ => trivial
    rw [ofJson?, toJson, record?_bind (by rfl) (by decide), required_bind rfl (string?_string _),
      required_bind rfl hparameters, required_bind rfl hcolumns]
    rfl
  fits {value query} h := by
    simp only [ofJson?, Option.bind_eq_bind, Option.bind_eq_some_iff, Option.pure_def,
      Option.some_inj] at h
    obtain ⟨record, -, sql, -, parameters, hp, columns, -, rfl⟩ := h
    exact Parameter.roundTrips.list.fits_required hp

/-! ### Join plans -/

namespace Plan

/-- The numbers of an input fit in 64 bits. -/
structure Input.Fits (input : Input) : Prop where
  slot : FitsNat64 input.slot
  typeId : ∀ id ∈ input.typeId, FitsInt64 id
  typeParameter : ∀ position ∈ input.typeParameter, FitsNat64 position
  hashParameter : ∀ position ∈ input.hashParameter, FitsNat64 position

/-- The numbers of an edge fit in 64 bits. -/
structure Edge.Fits (edge : Edge) : Prop where
  index : FitsNat64 edge.index
  predecessor : FitsNat64 edge.predecessor
  successor : FitsNat64 edge.successor
  roleParameter : FitsNat64 edge.roleParameter

mutual

/-- The numbers of all edges in a group and the groups inside of it fit in 64 bits. -/
def Group.Fits : Group → Prop
  | ⟨edges, groups⟩ => (∀ edge ∈ edges, edge.Fits) ∧ Group.AllFit groups

/-- The numbers of all edges in some groups fit in 64 bits. -/
def Group.AllFit : List Group → Prop
  | [] => True
  | group :: rest => group.Fits ∧ Group.AllFit rest

end

/-- All numbers of a plan fit in 64 bits. -/
structure Fits (plan : Plan) : Prop where
  inputs : ∀ input ∈ plan.inputs, input.Fits
  parameters : ∀ parameter ∈ plan.parameters, parameter.Fits
  outputs : ∀ output ∈ plan.outputs, FitsNat64 output.slot
  facts : ∀ fact ∈ plan.facts, FitsNat64 fact.slot
  edges : ∀ edge ∈ plan.edges, edge.Fits
  groups : Group.AllFit plan.groups

theorem roundTrips_typeId : RoundTrips (Json.ofOption Json.integer) (Json.nullable? Json.int64?)
    fun id => ∀ n ∈ id, FitsInt64 n := Json.roundTrips_int64.nullable nofun

theorem roundTrips_position : RoundTrips (Json.ofOption Json.ofNat) (Json.nullable? Json.nat64?)
    fun position => ∀ n ∈ position, FitsNat64 n := Json.roundTrips_nat64.nullable nofun

theorem Input.roundTrips : RoundTrips Input.toJson Input.ofJson? Input.Fits where
  read {input} h := by
    have hslot := Json.roundTrips_nat64.read h.slot
    have htypeId := roundTrips_typeId.read h.typeId
    have htype := roundTrips_position.read h.typeParameter
    have hhash := roundTrips_position.read h.hashParameter
    rw [ofJson?, toJson, record?_bind (by rfl) (by decide), required_bind rfl (string?_string _),
      required_bind rfl hslot, nullable_bind rfl htypeId, required_bind rfl (string?_string _),
      nullable_bind rfl htype, nullable_bind rfl hhash]
    rfl
  fits {value input} h := by
    simp only [ofJson?, Option.bind_eq_bind, Option.bind_eq_some_iff, Option.pure_def,
      Option.some_inj] at h
    obtain ⟨_, -, _, -, _, hslot, _, htypeId, _, -, _, htype, _, hhash, rfl⟩ := h
    exact ⟨Json.roundTrips_nat64.fits_required hslot, roundTrips_typeId.fits_nullable htypeId,
      roundTrips_position.fits_nullable htype, roundTrips_position.fits_nullable hhash⟩

theorem Fact.roundTrips : RoundTrips Fact.toJson Fact.ofJson? fun fact => FitsNat64 fact.slot where
  read h := by
    rw [ofJson?, toJson, record?_bind (by rfl) (by decide),
      required_bind rfl (Json.roundTrips_nat64.read h), required_bind rfl (string?_string _)]
    rfl
  fits {value fact} h := by
    simp only [ofJson?, Option.bind_eq_bind, Option.bind_eq_some_iff, Option.pure_def,
      Option.some_inj] at h
    obtain ⟨_, -, _, hslot, _, -, rfl⟩ := h
    exact Json.roundTrips_nat64.fits_required hslot

theorem Output.roundTrips :
    RoundTrips Output.toJson Output.ofJson? fun output => FitsNat64 output.slot where
  read h := by
    rw [ofJson?, toJson, record?_bind (by rfl) (by decide), required_bind rfl (string?_string _),
      required_bind rfl (string?_string _), required_bind rfl (Json.roundTrips_nat64.read h)]
    rfl
  fits {value output} h := by
    simp only [ofJson?, Option.bind_eq_bind, Option.bind_eq_some_iff, Option.pure_def,
      Option.some_inj] at h
    obtain ⟨_, -, _, -, _, -, _, hslot, rfl⟩ := h
    exact Json.roundTrips_nat64.fits_required hslot

theorem Edge.roundTrips : RoundTrips Edge.toJson Edge.ofJson? Edge.Fits where
  read {edge} h := by
    have hindex := Json.roundTrips_nat64.read h.index
    have hpredecessor := Json.roundTrips_nat64.read h.predecessor
    have hsuccessor := Json.roundTrips_nat64.read h.successor
    have hrole := Json.roundTrips_nat64.read h.roleParameter
    rw [ofJson?, toJson, record?_bind (by rfl) (by decide), required_bind rfl hindex,
      required_bind rfl hpredecessor, required_bind rfl hsuccessor, required_bind rfl hrole]
    rfl
  fits {value edge} h := by
    simp only [ofJson?, Option.bind_eq_bind, Option.bind_eq_some_iff, Option.pure_def,
      Option.some_inj] at h
    obtain ⟨_, -, _, hindex, _, hpredecessor, _, hsuccessor, _, hrole, rfl⟩ := h
    exact ⟨Json.roundTrips_nat64.fits_required hindex,
      Json.roundTrips_nat64.fits_required hpredecessor,
      Json.roundTrips_nat64.fits_required hsuccessor, Json.roundTrips_nat64.fits_required hrole⟩

theorem Group.allFit_iff {groups : List Group} :
    AllFit groups ↔ ∀ group ∈ groups, group.Fits := by
  induction groups with
  | nil => simp [AllFit]
  | cons group rest ih => rw [AllFit, ih, List.forall_mem_cons]

mutual

theorem Group.ofJsonBelow?_toJson : ∀ {group : Group} {height : Nat}, group.Fits →
    group.toJson.height < height → Group.ofJsonBelow? height group.toJson = some group
  | ⟨edges, groups⟩, height + 1, ⟨hedges, hgroups⟩, h => by
    have hlow : Json.heightItems (Group.toJsonAll groups) < height := by
      simp only [Group.toJson, Json.height, Json.heightFields] at h
      omega
    have hread := Edge.roundTrips.list.read hedges
    have hreads := Group.list?_toJsonAll hgroups hlow
    rw [Group.ofJsonBelow?, Group.toJson, record?_bind (by rfl) (by decide),
      required_bind rfl hread, required_bind rfl hreads]
    rfl

theorem Group.list?_toJsonAll : ∀ {groups : List Group} {height : Nat}, Group.AllFit groups →
    Json.heightItems (Group.toJsonAll groups) < height →
    Json.list? (Group.ofJsonBelow? height) (.array (Group.toJsonAll groups)) = some groups
  | [], _, _, _ => rfl
  | group :: rest, height, ⟨hgroup, hrest⟩, h => by
    rw [Group.toJsonAll, Json.heightItems] at h
    exact Json.list?_cons (Group.ofJsonBelow?_toJson hgroup (by omega))
      (Group.list?_toJsonAll hrest (by omega))

end

theorem Group.fits_of_ofJsonBelow? : ∀ {height : Nat} {value : Json} {group : Group},
    Group.ofJsonBelow? height value = some group → group.Fits
  | 0, _, _, h => by cases h
  | height + 1, value, group, h => by
    simp only [ofJsonBelow?, Option.bind_eq_bind, Option.bind_eq_some_iff, Option.pure_def,
      Option.some_inj] at h
    obtain ⟨_, -, edges, hedges, groups, hgroups, rfl⟩ := h
    obtain ⟨value, hgroups⟩ := Json.exists_of_required hgroups
    refine ⟨Edge.roundTrips.list.fits_required hedges, allFit_iff.mpr fun group hm => ?_⟩
    obtain ⟨item, hi⟩ := Json.exists_of_mem_list? hgroups hm
    exact fits_of_ofJsonBelow? hi

theorem Group.roundTrips : RoundTrips Group.toJson Group.ofJson? Group.Fits where
  read h := Group.ofJsonBelow?_toJson h (Nat.lt_succ_self _)
  fits := Group.fits_of_ofJsonBelow?

theorem Group.toJsonAll_eq {groups : List Group} : toJsonAll groups = groups.map toJson := by
  induction groups with
  | nil => rfl
  | cons group rest ih => rw [toJsonAll, ih, List.map_cons]

theorem roundTrips : RoundTrips toJson ofJson? Fits where
  read {plan} h := by
    have hinputs := Input.roundTrips.list.read h.inputs
    have hparameters := Parameter.roundTrips.list.read h.parameters
    have houtputs := Output.roundTrips.list.read h.outputs
    have hfacts := Fact.roundTrips.list.read h.facts
    have hedges := Edge.roundTrips.list.read h.edges
    have hgroups := Group.roundTrips.list.read (Group.allFit_iff.mp h.groups)
    rw [ofJson?, toJson, Group.toJsonAll_eq, record?_bind (by rfl) (by decide),
      required_bind rfl hinputs, required_bind rfl hparameters, required_bind rfl houtputs,
      required_bind rfl hfacts, required_bind rfl hedges, required_bind rfl hgroups]
    rfl
  fits {value plan} h := by
    simp only [ofJson?, Option.bind_eq_bind, Option.bind_eq_some_iff, Option.pure_def,
      Option.some_inj] at h
    obtain ⟨_, -, _, hinputs, _, hparameters, _, houtputs, _, hfacts, _, hedges, _, hgroups,
      rfl⟩ := h
    exact ⟨Input.roundTrips.list.fits_required hinputs,
      Parameter.roundTrips.list.fits_required hparameters,
      Output.roundTrips.list.fits_required houtputs, Fact.roundTrips.list.fits_required hfacts,
      Edge.roundTrips.list.fits_required hedges,
      Group.allFit_iff.mpr (Group.roundTrips.list.fits_required hgroups)⟩

end Plan

/-! ### Assessments -/

/-- The depth of a denial fits in 64 bits. -/
def Assessment.Fits : Assessment → Prop
  | .permit => True
  | .deny _ depth => FitsNat64 depth

theorem Assessment.roundTrips :
    RoundTrips Assessment.toJson Assessment.ofJson? Assessment.Fits where
  read {assessment} h := by
    cases assessment with
    | permit =>
      rw [ofJson?, toJson, tagged?_bind rfl rfl rfl]
      rfl
    | deny reason depth =>
      have hdepth := Json.roundTrips_nat64.read h
      rw [ofJson?, toJson, tagged?_bind rfl rfl rfl]
      simp only
      rw [record?_bind (by rfl) (by decide), required_bind rfl (string?_string _),
        required_bind rfl hdepth]
      rfl
  fits {value assessment} h := by
    simp only [ofJson?, Option.bind_eq_bind, Option.bind_eq_some_iff] at h
    obtain ⟨⟨name, rest⟩, -, h⟩ := h
    dsimp only at h
    split at h
    · obtain ⟨_, -, h⟩ := Option.bind_eq_some_iff.mp h
      cases h
      trivial
    · simp only [Option.bind_eq_some_iff, Option.pure_def, Option.some_inj] at h
      obtain ⟨_, -, _, -, _, hdepth, rfl⟩ := h
      exact Json.roundTrips_nat64.fits_required hdepth
    · cases h

/-! ### Specifications -/

theorem Label.roundTrips : RoundTrips Label.toJson Label.ofJson? fun _ => True where
  read _ := by
    rw [ofJson?, toJson, record?_bind (by rfl) (by decide), required_bind rfl (string?_string _),
      required_bind rfl (string?_string _)]
    rfl
  fits _ := trivial

theorem Role.roundTrips : RoundTrips Role.toJson Role.ofJson? fun _ => True where
  read _ := by
    rw [ofJson?, toJson, record?_bind (by rfl) (by decide), required_bind rfl (string?_string _),
      required_bind rfl (string?_string _)]
    rfl
  fits _ := trivial

theorem PathCondition.ofJson?_fields (path : PathCondition) :
    PathCondition.ofJson? (.object path.fields) = some path := by
  have hroles (roles : List Role) :
      Json.list? Role.ofJson? (.ofList Role.toJson roles) = some roles :=
    Role.roundTrips.list.read fun _ _ => trivial
  rw [ofJson?, fields, record?_bind (by rfl) (by decide), required_bind rfl (hroles _),
    required_bind rfl (string?_string _), required_bind rfl (hroles _)]
  rfl

theorem Label.isReadable_toJson (label : Label) : label.toJson.isReadable = true := rfl

theorem areReadable_map {α : Type} {encode : α → Json}
    (h : ∀ a, (encode a).isReadable = true) : ∀ items : List α,
    Json.areReadable (items.map encode) = true
  | [] => rfl
  | a :: rest => by rw [List.map_cons, Json.areReadable, h, areReadable_map h, Bool.and_true]

theorem PathCondition.haveReadable_fields (path : PathCondition) :
    Json.haveReadable path.fields = true := by
  have hroles (roles : List Role) : (Json.ofList Role.toJson roles).isReadable = true :=
    areReadable_map (fun _ => rfl) roles
  simp only [fields, Json.haveReadable, hroles, Json.isReadable, Bool.and_true]

mutual

theorem Condition.isReadable_toJson : ∀ condition : Condition, condition.toJson.isReadable = true
  | .path path => by
    simp only [Condition.toJson, Json.tagged, Json.isReadable, Json.haveReadable,
      path.haveReadable_fields, Bool.and_true]
  | .existential holds block => by
    simp only [Condition.toJson, Json.tagged, Json.isReadable, Json.haveReadable,
      Match.areReadable_toJsonAll block, Bool.and_true]

theorem Match.isReadable_toJson : ∀ m : Match, m.toJson.isReadable = true
  | ⟨unknown, conditions⟩ => by
    simp only [Match.toJson, Json.isReadable, Json.haveReadable, unknown.isReadable_toJson,
      Condition.areReadable_toJsonAll conditions, Bool.and_true]

theorem Match.areReadable_toJsonAll : ∀ block : List Match,
    Json.areReadable (Match.toJsonAll block) = true
  | [] => rfl
  | m :: rest => by
    rw [Match.toJsonAll, Json.areReadable, m.isReadable_toJson, Match.areReadable_toJsonAll rest,
      Bool.and_true]

theorem Condition.areReadable_toJsonAll : ∀ conditions : List Condition,
    Json.areReadable (Condition.toJsonAll conditions) = true
  | [] => rfl
  | condition :: rest => by
    rw [Condition.toJsonAll, Json.areReadable, condition.isReadable_toJson,
      Condition.areReadable_toJsonAll rest, Bool.and_true]

end

mutual

theorem Condition.ofJsonBelow?_toJson {inside : Bool} : ∀ (condition : Condition) {height : Nat},
    condition.toJson.height < height →
      Condition.ofJsonBelow? inside height condition.toJson = some condition
  | .path path, height + 1, _ => by
    rw [Condition.ofJsonBelow?, Condition.toJson,
      tagged?_bind rfl rfl path.haveReadable_fields]
    simp only [path.ofJson?_fields]
    rfl
  | .existential holds block, height + 1, h => by
    have hreadable : Json.haveReadable [("exists", .bool holds),
        ("matches", .array (Match.toJsonAll block))] = true := by
      simp only [Json.haveReadable, Json.isReadable, Match.areReadable_toJsonAll block,
        Bool.and_true]
    have hlow : Json.heightItems (Match.toJsonAll block) < height := by
      simp only [Condition.toJson, Json.tagged, Json.height, Json.heightFields] at h
      omega
    rw [Condition.ofJsonBelow?, Condition.toJson, tagged?_bind rfl rfl hreadable]
    simp only
    rw [record?_bind (by rfl) (by decide), required_bind rfl (bool?_bool _),
      required_bind rfl (Match.list?_toJsonAll block hlow)]
    rfl

theorem Match.ofJsonBelow?_toJson {inside : Bool} : ∀ (m : Match) {height : Nat},
    m.toJson.height < height → Match.ofJsonBelow? inside height m.toJson = some m
  | ⟨unknown, conditions⟩, height + 1, h => by
    have hlow : Json.heightItems (Condition.toJsonAll conditions) < height := by
      simp only [Match.toJson, Json.height, Json.heightFields] at h
      omega
    rw [Match.ofJsonBelow?, Match.toJson, record?_bind (by rfl) (by decide),
      required_bind rfl (Label.roundTrips.read trivial),
      required_bind rfl (Condition.list?_toJsonAll conditions hlow)]
    rfl

theorem Match.list?_toJsonAll {inside : Bool} : ∀ (block : List Match) {height : Nat},
    Json.heightItems (Match.toJsonAll block) < height →
    Json.list? (Match.ofJsonBelow? inside height) (.array (Match.toJsonAll block)) = some block
  | [], _, _ => rfl
  | m :: rest, height, h => by
    rw [Match.toJsonAll, Json.heightItems] at h
    exact Json.list?_cons (m.ofJsonBelow?_toJson (by omega)) (Match.list?_toJsonAll rest (by omega))

theorem Condition.list?_toJsonAll {inside : Bool} : ∀ (conditions : List Condition) {height : Nat},
    Json.heightItems (Condition.toJsonAll conditions) < height →
    Json.list? (Condition.ofJsonBelow? inside height) (.array (Condition.toJsonAll conditions)) =
      some conditions
  | [], _, _ => rfl
  | condition :: rest, height, h => by
    rw [Condition.toJsonAll, Json.heightItems] at h
    exact Json.list?_cons (condition.ofJsonBelow?_toJson (by omega))
      (Condition.list?_toJsonAll rest (by omega))

end

theorem Condition.roundTrips : RoundTrips Condition.toJson Condition.ofJson? fun _ => True where
  read {condition} _ := condition.ofJsonBelow?_toJson (Nat.lt_succ_self _)
  fits _ := trivial

theorem Match.roundTrips (inside : Bool) :
    RoundTrips Match.toJson (Match.ofJson? inside) fun _ => True where
  read {m} _ := m.ofJsonBelow?_toJson (Nat.lt_succ_self _)
  fits _ := trivial

theorem Match.toJsonAll_eq : ∀ {block : List Match}, Match.toJsonAll block = block.map Match.toJson
  | [] => rfl
  | m :: rest => by rw [Match.toJsonAll, Match.toJsonAll_eq, List.map_cons]

theorem Match.list?_ofJson? (inside : Bool) (block : List Match) :
    Json.list? (Match.ofJson? inside) (.array (Match.toJsonAll block)) = some block := by
  rw [Match.toJsonAll_eq]
  exact (Match.roundTrips inside).list.read fun _ _ => trivial

mutual

theorem Projection.isReadable_toJson : ∀ projection : Projection,
    projection.toJson.isReadable = true
  | .field _ _ _ | .hash _ _ | .fact _ _ => rfl
  | .nested name block projections => by
    simp only [Projection.toJson, Json.tagged, Json.isReadable, Json.haveReadable,
      Match.areReadable_toJsonAll block, Projection.areReadable_toJsonAll projections,
      Bool.and_true]

theorem Projection.areReadable_toJsonAll : ∀ projections : List Projection,
    Json.areReadable (Projection.toJsonAll projections) = true
  | [] => rfl
  | projection :: rest => by
    rw [Projection.toJsonAll, Json.areReadable, projection.isReadable_toJson,
      Projection.areReadable_toJsonAll rest, Bool.and_true]

end

mutual

theorem Projection.ofJsonBelow?_toJson {inside : Bool} : ∀ (projection : Projection)
    {height : Nat}, projection.toJson.height < height →
      Projection.ofJsonBelow? inside height projection.toJson = some projection
  | .field name label path, height + 1, _ => by
    rw [Projection.ofJsonBelow?, Projection.toJson, tagged?_bind rfl rfl rfl]
    simp only
    rw [record?_bind (by rfl) (by decide), required_bind rfl (string?_string _),
      required_bind rfl (string?_string _), required_bind rfl (string?_string _)]
    rfl
  | .hash name label, height + 1, _ => by
    rw [Projection.ofJsonBelow?, Projection.toJson, tagged?_bind rfl rfl rfl]
    simp only
    rw [record?_bind (by rfl) (by decide), required_bind rfl (string?_string _),
      required_bind rfl (string?_string _)]
    rfl
  | .fact name label, height + 1, _ => by
    rw [Projection.ofJsonBelow?, Projection.toJson, tagged?_bind rfl rfl rfl]
    simp only
    rw [record?_bind (by rfl) (by decide), required_bind rfl (string?_string _),
      required_bind rfl (string?_string _)]
    rfl
  | .nested name block projections, height + 1, h => by
    have hreadable : Json.haveReadable [("name", .string name),
        ("matches", .array (Match.toJsonAll block)),
        ("projections", .array (Projection.toJsonAll projections))] = true := by
      simp only [Json.haveReadable, Json.isReadable, Match.areReadable_toJsonAll block,
        Projection.areReadable_toJsonAll projections, Bool.and_true]
    have hlow : Json.heightItems (Projection.toJsonAll projections) < height := by
      simp only [Projection.toJson, Json.tagged, Json.height, Json.heightFields] at h
      omega
    rw [Projection.ofJsonBelow?, Projection.toJson, tagged?_bind rfl rfl hreadable]
    simp only
    rw [record?_bind (by rfl) (by decide), required_bind rfl (string?_string _),
      required_bind rfl (Match.list?_ofJson? true block),
      required_bind rfl (Projection.list?_toJsonAll projections hlow)]
    rfl

theorem Projection.list?_toJsonAll {inside : Bool} : ∀ (projections : List Projection)
    {height : Nat}, Json.heightItems (Projection.toJsonAll projections) < height →
      Json.list? (Projection.ofJsonBelow? inside height)
        (.array (Projection.toJsonAll projections)) = some projections
  | [], _, _ => rfl
  | projection :: rest, height, h => by
    rw [Projection.toJsonAll, Json.heightItems] at h
    exact Json.list?_cons (projection.ofJsonBelow?_toJson (by omega))
      (Projection.list?_toJsonAll rest (by omega))

end

theorem Projection.roundTrips : RoundTrips Projection.toJson Projection.ofJson? fun _ => True where
  read {projection} _ := projection.ofJsonBelow?_toJson (Nat.lt_succ_self _)
  fits _ := trivial

theorem Projection.toJsonAll_eq : ∀ {projections : List Projection},
    Projection.toJsonAll projections = projections.map Projection.toJson
  | [] => rfl
  | projection :: rest => by rw [Projection.toJsonAll, Projection.toJsonAll_eq, List.map_cons]

/-- **A specification is read back**, with all its blocks and projections. -/
theorem Specification.roundTrips :
    RoundTrips Specification.toJson Specification.ofJson? fun _ => True where
  read {spec} _ := by
    have hgiven := Label.roundTrips.list.read (a := spec.given) fun _ _ => trivial
    have hprojections := Projection.roundTrips.list.read (a := spec.projections)
      fun _ _ => trivial
    rw [ofJson?, toJson, Projection.toJsonAll_eq, record?_bind (by rfl) (by decide),
      required_bind rfl hgiven, required_bind rfl (Match.list?_ofJson? false spec.body),
      required_bind rfl hprojections]
    rfl
  fits _ := trivial

/-! ### Walks -/

theorem Direction.ofJson?_toJson (direction : Direction) :
    Direction.ofJson? direction.toJson = some direction := by
  cases direction <;> rfl

mutual

theorem Walk.ofJsonBelow?_toJson : ∀ (walk : Walk) {height : Nat}, walk.toJson.height < height →
    Walk.ofJsonBelow? height walk.toJson = some walk
  | ⟨type, steps, obligations⟩, height + 1, h => by
    have hlow : Json.heightItems (Step.toJsonAll steps) < height ∧
        Json.heightItems (Obligation.toJsonAll obligations) < height := by
      simp only [Walk.toJson, Json.height, Json.heightFields] at h
      omega
    rw [Walk.ofJsonBelow?, Walk.toJson, record?_bind (by rfl) (by decide),
      required_bind rfl (string?_string _), required_bind rfl (Step.list?_toJsonAll steps hlow.1),
      required_bind rfl (Obligation.list?_toJsonAll obligations hlow.2)]
    rfl

theorem Step.ofJsonBelow?_toJson : ∀ (step : Step) {height : Nat}, step.toJson.height < height →
    Step.ofJsonBelow? height step.toJson = some step
  | ⟨direction, role, next⟩, height + 1, h => by
    have hlow : next.toJson.height < height := by
      simp only [Step.toJson, Json.height, Json.heightFields] at h
      omega
    rw [Step.ofJsonBelow?, Step.toJson, record?_bind (by rfl) (by decide),
      required_bind rfl direction.ofJson?_toJson, required_bind rfl (string?_string _),
      required_bind rfl (next.ofJsonBelow?_toJson hlow)]
    rfl

theorem Obligation.ofJsonBelow?_toJson : ∀ (obligation : Obligation) {height : Nat},
    obligation.toJson.height < height →
      Obligation.ofJsonBelow? height obligation.toJson = some obligation
  | ⟨holds, step⟩, height + 1, h => by
    have hlow : step.toJson.height < height := by
      simp only [Obligation.toJson, Json.height, Json.heightFields] at h
      omega
    rw [Obligation.ofJsonBelow?, Obligation.toJson, record?_bind (by rfl) (by decide),
      required_bind rfl (bool?_bool _), required_bind rfl (step.ofJsonBelow?_toJson hlow)]
    rfl

theorem Step.list?_toJsonAll : ∀ (steps : List Step) {height : Nat},
    Json.heightItems (Step.toJsonAll steps) < height →
    Json.list? (Step.ofJsonBelow? height) (.array (Step.toJsonAll steps)) = some steps
  | [], _, _ => rfl
  | step :: rest, height, h => by
    rw [Step.toJsonAll, Json.heightItems] at h
    exact Json.list?_cons (step.ofJsonBelow?_toJson (by omega))
      (Step.list?_toJsonAll rest (by omega))

theorem Obligation.list?_toJsonAll : ∀ (obligations : List Obligation) {height : Nat},
    Json.heightItems (Obligation.toJsonAll obligations) < height →
    Json.list? (Obligation.ofJsonBelow? height) (.array (Obligation.toJsonAll obligations)) =
      some obligations
  | [], _, _ => rfl
  | obligation :: rest, height, h => by
    rw [Obligation.toJsonAll, Json.heightItems] at h
    exact Json.list?_cons (obligation.ofJsonBelow?_toJson (by omega))
      (Obligation.list?_toJsonAll rest (by omega))

end

theorem Walk.roundTrips : RoundTrips Walk.toJson Walk.ofJson? fun _ => True where
  read {walk} _ := walk.ofJsonBelow?_toJson (Nat.lt_succ_self _)
  fits _ := trivial

/-! ### All kinds of values -/

/-- **Reading undoes writing for every kind of value**: what fits is read back, and what is read
from any value is read again from what is written for it. -/
theorem Json.roundTrips_all :
    RoundTrips Specification.toJson Specification.ofJson? (fun _ => True) ∧
      RoundTrips Condition.toJson Condition.ofJson? (fun _ => True) ∧
      RoundTrips Projection.toJson Projection.ofJson? (fun _ => True) ∧
      RoundTrips Walk.toJson Walk.ofJson? (fun _ => True) ∧
      RoundTrips Assessment.toJson Assessment.ofJson? Assessment.Fits ∧
      RoundTrips Parameter.toJson Parameter.ofJson? Parameter.Fits ∧
      RoundTrips SqlQuery.toJson SqlQuery.ofJson? SqlQuery.Fits ∧
      RoundTrips Plan.toJson Plan.ofJson? Plan.Fits ∧
      RoundTrips FactReference.toJson FactReference.ofJson? (fun _ => True) ∧
      RoundTrips FactBookmark.toJson FactBookmark.ofJson? FactBookmark.Fits :=
  ⟨Specification.roundTrips, Condition.roundTrips, Projection.roundTrips, Walk.roundTrips,
    Assessment.roundTrips, Parameter.roundTrips, SqlQuery.roundTrips, Plan.roundTrips,
    FactReference.roundTrips, FactBookmark.roundTrips⟩

end FactGraph

import FactGraph.Specification.Basic

/-! # Contexts

A context is a block of matches with a hole: a place in the block itself, or in the block of an
existential condition at whatever depth, where further matches can be put. Projections and whole
specifications have contexts as well. With matches in the hole a context is a block, or a
specification, so a part of a specification can be told from what stands around it. -/

namespace FactGraph

/-- A block with a hole in it. -/
inductive Match.Context where
  /-- The hole is in front of the rest of the block. -/
  | here (rest : List Match)
  | behind (m : Match) (context : Match.Context)
  /-- The hole is in the block of a condition of the first match. -/
  | inside (unknown : Label) (before : List Condition) (holds : Bool) (context : Match.Context)
      (after : List Condition) (rest : List Match)

/-- The block with some matches in the hole. -/
def Match.Context.fill (filling : List Match) : Match.Context → List Match
  | here rest => filling ++ rest
  | behind m context => m :: context.fill filling
  | inside unknown before holds context after rest =>
    ⟨unknown, before ++ .existential holds (context.fill filling) :: after⟩ :: rest

/-- Projections with a hole in the block of one of them. -/
inductive Projection.Context where
  | here (name : String) (context : Match.Context) (projections rest : List Projection)
  | behind (projection : Projection) (context : Projection.Context)
  /-- The hole is in a projection of the first one. -/
  | inside (name : String) (block : List Match) (context : Projection.Context)
      (rest : List Projection)

/-- The projections with some matches in the hole. -/
def Projection.Context.fill (filling : List Match) : Projection.Context → List Projection
  | here name context projections rest => .nested name (context.fill filling) projections :: rest
  | behind projection context => projection :: context.fill filling
  | inside name block context rest => .nested name block (context.fill filling) :: rest

/-- A specification with a hole in one of its blocks. -/
inductive Specification.Context where
  | inBody (given : List Label) (context : Match.Context) (projections : List Projection)
  | inProjections (given : List Label) (body : List Match) (context : Projection.Context)

/-- The specification with some matches in the hole. -/
def Specification.Context.fill (filling : List Match) : Specification.Context → Specification
  | inBody given context projections => ⟨given, context.fill filling, projections⟩
  | inProjections given body context => ⟨given, body, context.fill filling⟩

end FactGraph

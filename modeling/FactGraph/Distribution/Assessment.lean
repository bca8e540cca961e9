/-! # Assessments

Something is permitted, or denied for a reason that was found at some depth. Of several assessments
a permit wins; otherwise the deepest denial, and among equally deep ones the first.

Depths are words of 64 bits. Counting starts again from 0 behind the last one, as it does in a build
without overflow checks; a build with them stops there. -/

namespace FactGraph

/-- The outcome of an assessment. -/
inductive Assessment where
  | permit
  | deny (reason : String) (depth : Nat)
  deriving DecidableEq, Repr

namespace Assessment

def isPermit : Assessment → Bool
  | permit => true
  | deny _ _ => false

/-- The depth one level below another one. -/
def deeper (depth : Nat) : Nat := (depth + 1) % UInt64.size

/-- The denial when there is nothing to assess. -/
def noRule : Assessment := deny "No distribution rule applies." 0

/-- The deeper of two denials, or the first of two that are equally deep; a permit comes first. -/
def prefer : Assessment → Assessment → Assessment
  | permit, _ => permit
  | _, permit => permit
  | deny reason depth, deny reason' depth' =>
    if depth < depth' then deny reason' depth' else deny reason depth

/-- The outcome of several assessments. -/
def summarize : List Assessment → Assessment
  | [] => noRule
  | first :: rest => rest.foldl prefer first

end Assessment

end FactGraph

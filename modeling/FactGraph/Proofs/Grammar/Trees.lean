import FactGraph.Proofs.Except
import FactGraph.Proofs.Grammar.Written
import Mathlib.Data.List.TakeWhile

/-! # What written trees stand for

The tokens that write a tree spell the specification that the tree stands for; and tokens that spell
a specification write a tree that stands for it, whatever the places of the tokens are. So the
spellings of specifications are the token sequences of the grammar.

* `Tree.Specification.spelledBy_of_writtenBy`: **a tree stands for what its tokens spell.**
* `Specification.exists_writtenBy`: **what spells a specification writes a tree of it.** -/

namespace FactGraph

variable {front : List Lexeme}

/-! ### The specification of a tree -/

namespace Tree

/-- Whatever the condition stands for is spelled by the tokens. -/
def Condition.SpelledBy (tree : Condition) (tokens : List Token) : Prop :=
  ∀ text unknown condition, tree.read text unknown = .ok condition →
    condition.SpelledBy unknown tokens

/-- Whatever the clauses stand for is spelled by the tokens. -/
def Clause.AllSpelledBy (trees : List Clause) (tokens : List Token) : Prop :=
  ∀ text block, Clause.readAll text trees = .ok block → Match.AllSpelledBy block tokens

/-- The block of whatever the clauses stand for is spelled by the tokens. -/
def Clause.BlockSpelledBy (trees : List Clause) (tokens : List Token) : Prop :=
  ∀ text block, Clause.readAll text trees = .ok block → Match.BlockSpelledBy block tokens

/-- Whatever the projection stands for is spelled by the tokens. -/
def Projection.SpelledBy (tree : Projection) (tokens : List Token) : Prop :=
  ∀ text projection, tree.read text = .ok projection → projection.SpelledBy tokens

/-- Whatever the projections stand for is yielded by the tokens. -/
def Projection.AllYieldedBy (trees : List Projection) (tokens : List Token) : Prop :=
  ∀ text projections, Projection.readAll text trees = .ok projections →
    YieldedBy projections (FactGraph.Projection.AllSpelledBy projections) tokens

theorem Condition.spelledBy_path {left : Nat} {first second : Side} :
    (Condition.path left first second).SpelledBy (sideTokens first.label first.roles ++
      .char '=' :: sideTokens second.label second.roles) := by
  intro text unknown condition h
  obtain ⟨path, hp, hc⟩ := Except.bind_eq_ok_iff.mp h
  cases hc
  unfold Condition.orient at hp
  split_ifs at hp with hfirst hsecond
  · cases hp
    subst hfirst
    exact Or.inl rfl
  · cases hp
    subst hsecond
    exact Or.inr ⟨hfirst, rfl⟩

theorem Condition.spelledBy_existential {holds : Bool} {block : List Clause} {tokens : List Token}
    (h : Clause.BlockSpelledBy block tokens) : (Condition.existential holds block).SpelledBy
      ((if holds then [] else [.char '!']) ++ .word "E" :: tokens) := by
  intro text unknown condition hr
  obtain ⟨matched, hm, hc⟩ := Except.bind_eq_ok_iff.mp hr
  cases hc
  obtain ⟨inner, hinner, rfl⟩ := h text matched hm
  exact ⟨inner, hinner, rfl⟩

theorem Condition.allSpelledBy_of_readAll {text : List Char} {unknown : String} :
    ∀ {trees : List Condition} {tokens : List Token} {conditions : List FactGraph.Condition},
    EachSpelledBy Condition.SpelledBy trees tokens →
    Condition.readAll text unknown trees = .ok conditions →
    FactGraph.Condition.AllSpelledBy unknown conditions tokens
  | [], _, _, h, hr => by
    cases hr
    exact h
  | tree :: rest, _, _, h, hr => by
    obtain ⟨condition, hc, hr⟩ := Except.bind_eq_ok_iff.mp hr
    obtain ⟨others, ho, hr⟩ := Except.bind_eq_ok_iff.mp hr
    cases hr
    obtain ⟨first, behind, hfirst, hbehind, rfl⟩ := h
    exact ⟨first, behind, hfirst text unknown condition hc,
      Condition.allSpelledBy_of_readAll hbehind ho, rfl⟩

/-- The label of a clause and the conditions in its brackets are spelled by the tokens. -/
def Clause.SpelledBy (tree : Clause) (tokens : List Token) : Prop :=
  ∃ inner, EachSpelledBy Condition.SpelledBy tree.conditions inner ∧
    tokens = tree.unknown.tokens ++ .char '[' :: (inner ++ [.char ']'])

theorem Clause.allSpelledBy_of_each : ∀ {trees : List Clause} {tokens : List Token},
    EachSpelledBy Clause.SpelledBy trees tokens → Clause.AllSpelledBy trees tokens
  | [], _, h, _, _, hr => by
    cases hr
    exact h
  | ⟨unknown, conditions⟩ :: rest, _, h, text, block, hr => by
    obtain ⟨m, hm, hr⟩ := Except.bind_eq_ok_iff.mp hr
    obtain ⟨others, ho, hr⟩ := Except.bind_eq_ok_iff.mp hr
    cases hr
    obtain ⟨read, hc, hm⟩ := Except.bind_eq_ok_iff.mp hm
    cases hm
    obtain ⟨_, behind, ⟨inner, hinner, rfl⟩, hbehind, rfl⟩ := h
    exact ⟨inner, behind, Condition.allSpelledBy_of_readAll hinner hc,
      Clause.allSpelledBy_of_each hbehind text others ho, by simp⟩

/-- **A scalar stands for a projection with the same tokens.** -/
theorem Scalar.scalarTokens_read (name : String) : ∀ value : Scalar,
    (value.read name).isPlain = true ∧ (value.read name).scalarTokens = value.tokens ∧
      (value.read name).name = name
  | .hash label => ⟨rfl, rfl, rfl⟩
  | .reference path => by
    have hplain : (path.toList.takeWhile (· != '.')).all (· != '.') = true := List.all_takeWhile
    have hsplit : path.toList.takeWhile (· != '.') ++ path.toList.dropWhile (· != '.') =
        path.toList := List.takeWhile_append_dropWhile
    rw [Scalar.read]
    rcases hrest : path.toList.dropWhile (· != '.') with _ | ⟨dot, rest⟩
    · rw [hrest, List.append_nil] at hsplit
      rw [hsplit] at hplain
      exact ⟨hplain, rfl, rfl⟩
    -- what is left starts with the first dot
    · have hdot : dot = '.' := by
        have hhead := List.head?_dropWhile_not (· != '.') path.toList
        rw [hrest] at hhead
        simpa using hhead
      have hword : String.ofList (path.toList.takeWhile (· != '.')) ++ "." ++ String.ofList rest =
          path := by
        rw [hrest, hdot] at hsplit
        refine String.toList_inj.mp ?_
        simpa using hsplit
      refine ⟨?_, ?_, rfl⟩
      · simp [FactGraph.Projection.isPlain]
      · simp only [FactGraph.Projection.scalarTokens, hword, Scalar.tokens]

theorem Projection.spelledBy_scalar {name : String} {value : Scalar} :
    (Projection.scalar name value).SpelledBy (.word name :: .char '=' :: value.tokens) := by
  intro text projection h
  cases h
  obtain ⟨hplain, htokens, hname⟩ := value.scalarTokens_read name
  have hspelled : (value.read name).ScalarSpelledBy (.word name :: .char '=' :: value.tokens) :=
    ⟨hplain, by rw [hname, htokens]⟩
  cases hvalue : value.read name with
  | nested => rw [hvalue] at hplain; cases hplain
  | _ => rwa [hvalue] at hspelled

theorem Projection.spelledBy_nested {name : String} {block : List Clause}
    {projections : List Projection} {sign inner tail : List Token}
    (hs : sign = [] ∨ sign = [.char '=']) (hb : Clause.BlockSpelledBy block inner)
    (hp : AllYieldedBy projections tail) : (Projection.nested name block projections).SpelledBy
      (.word name :: (sign ++ (inner ++ tail))) := by
  intro text projection h
  obtain ⟨matched, hm, h⟩ := Except.bind_eq_ok_iff.mp h
  obtain ⟨read, hr, h⟩ := Except.bind_eq_ok_iff.mp h
  cases h
  exact ⟨sign, inner, tail, hs, hb text matched hm, hp text read hr, rfl⟩

theorem Projection.allYieldedBy_nil : AllYieldedBy [] [] := by
  intro text projections h
  cases h
  exact Or.inl ⟨rfl, rfl⟩

theorem Projection.allYieldedBy_bare {value : Scalar} :
    AllYieldedBy [.scalar "" value] (.yields :: value.tokens) := by
  intro text projections h
  cases h
  obtain ⟨hplain, htokens, hname⟩ := value.scalarTokens_read ""
  refine Or.inr (Or.inl ⟨_, rfl, ?_, hplain, by rw [htokens]⟩)
  cases hvalue : value.read "" <;> rw [hvalue] at hplain hname
  · exact congrArg String.isEmpty hname
  · exact congrArg String.isEmpty hname
  · exact congrArg String.isEmpty hname
  · cases hplain

theorem Projection.allYieldedBy_block {trees : List Projection} {inner : List Token}
    (h : EachSpelledBy Projection.SpelledBy trees inner) :
    AllYieldedBy trees (.yields :: .char '\x7b' :: (inner ++ [.char '\x7d'])) := by
  intro text projections hr
  refine Or.inr (Or.inr ⟨inner, ?_, rfl⟩)
  induction trees generalizing projections inner with
  | nil =>
    cases hr
    exact h
  | cons tree rest ih =>
    obtain ⟨projection, hp, hr⟩ := Except.bind_eq_ok_iff.mp hr
    obtain ⟨others, ho, hr⟩ := Except.bind_eq_ok_iff.mp hr
    cases hr
    obtain ⟨first, behind, hfirst, hbehind, rfl⟩ := h
    exact ⟨first, behind, hfirst text projection hp, ih hbehind others ho, rfl⟩

theorem Clause.blockSpelledBy_of_writtenBy {block : List Clause}
    (hclauses : ∀ inner, Clause.AllWrittenBy block inner →
      EachSpelledBy Clause.SpelledBy block (inner.map Lexeme.token))
    (h : Clause.BlockWrittenBy block front) :
    Clause.BlockSpelledBy block (front.map Lexeme.token) := by
  obtain ⟨opening, inner, closing, ho, hinner, hc, rfl⟩ := h
  intro text matched hr
  exact ⟨_, Clause.allSpelledBy_of_each (hclauses inner hinner) text matched hr, by simp [ho, hc]⟩

mutual

theorem Condition.spelledBy_of_writtenBy : ∀ {condition : Condition} {front : List Lexeme},
    condition.WrittenBy front → condition.SpelledBy (front.map Lexeme.token)
  | .path _ _ _, _, h => by
    rw [h.2]
    exact Condition.spelledBy_path
  | .existential holds block, _, h => by
    obtain ⟨sign, inner, hsign, hinner, rfl⟩ := h
    have hblock : Clause.BlockSpelledBy block (inner.map Lexeme.token) :=
      Clause.blockSpelledBy_of_writtenBy (fun _ hi => Clause.each_of_writtenBy hi) hinner
    simpa [hsign] using @Condition.spelledBy_existential holds _ _ hblock

theorem Clause.each_of_writtenBy : ∀ {block : List Clause} {front : List Lexeme},
    Clause.AllWrittenBy block front → EachSpelledBy Clause.SpelledBy block (front.map Lexeme.token)
  | [], _, h => by
    cases h
    rfl
  | ⟨unknown, conditions⟩ :: rest, _, h => by
    obtain ⟨_, others, ⟨opening, inner, closing, ho, hinner, hc, rfl⟩, hothers, rfl⟩ := h
    exact ⟨_, _, ⟨_, Condition.each_of_writtenBy hinner, rfl⟩, Clause.each_of_writtenBy hothers,
      by simp [ho, hc]⟩

theorem Condition.each_of_writtenBy : ∀ {conditions : List Condition} {front : List Lexeme},
    Condition.AllWrittenBy conditions front →
      EachSpelledBy Condition.SpelledBy conditions (front.map Lexeme.token)
  | [], _, h => by
    cases h
    rfl
  | condition :: rest, _, h => by
    obtain ⟨first, others, hf, ho, rfl⟩ := h
    exact ⟨_, _, Condition.spelledBy_of_writtenBy hf, Condition.each_of_writtenBy ho,
      List.map_append⟩

end

theorem Clause.blockSpelledBy {block : List Clause} (h : Clause.BlockWrittenBy block front) :
    Clause.BlockSpelledBy block (front.map Lexeme.token) :=
  Clause.blockSpelledBy_of_writtenBy (fun _ hi => Clause.each_of_writtenBy hi) h

theorem Projection.allYieldedBy_of_yielded {projections : List Projection}
    (hlines : ∀ inner, Projection.AllWrittenBy projections inner →
      EachSpelledBy Projection.SpelledBy projections (inner.map Lexeme.token))
    (h : Projection.Yielded projections (Projection.AllWrittenBy projections) front) :
    Projection.AllYieldedBy projections (front.map Lexeme.token) := by
  rcases h with ⟨rfl, rfl⟩ | ⟨value, rfl, h⟩ | ⟨opening, inner, closing, ho, hinner, hc, rfl⟩
  · exact Projection.allYieldedBy_nil
  · rw [h]
    exact Projection.allYieldedBy_bare
  · simpa [ho, hc] using Projection.allYieldedBy_block (hlines inner hinner)

mutual

theorem Projection.spelledBy_of_writtenBy : ∀ {projection : Projection} {front : List Lexeme},
    projection.WrittenBy front → projection.SpelledBy (front.map Lexeme.token)
  | .scalar _ _, _, h => by
    rw [show List.map Lexeme.token _ = _ from h]
    exact Projection.spelledBy_scalar
  | .nested name block projections, _, h => by
    obtain ⟨word, sign, inner, tail, hword, hs, hinner, htail, rfl⟩ := h
    have hyielded := Projection.allYieldedBy_of_yielded
      (fun _ hi => Projection.each_of_writtenBy hi) htail
    simpa [hword] using Projection.spelledBy_nested hs (Clause.blockSpelledBy hinner) hyielded

theorem Projection.each_of_writtenBy : ∀ {projections : List Projection} {front : List Lexeme},
    Projection.AllWrittenBy projections front →
      EachSpelledBy Projection.SpelledBy projections (front.map Lexeme.token)
  | [], _, h => by
    cases h
    rfl
  | projection :: rest, _, h => by
    obtain ⟨first, others, hf, ho, rfl⟩ := h
    exact ⟨_, _, Projection.spelledBy_of_writtenBy hf, Projection.each_of_writtenBy ho,
      List.map_append⟩

end

/-- **A tree stands for what its tokens spell.** -/
theorem Specification.spelledBy_of_writtenBy {tree : Specification} {text : List Char}
    {spec : FactGraph.Specification} (h : tree.WrittenBy front) (hr : tree.read text = .ok spec) :
    spec.SpelledBy (front.map Lexeme.token) := by
  obtain ⟨first, others, given, block, tail, hgiven, hfront, hblock, htail, rfl⟩ := h
  obtain ⟨matched, hm, hr⟩ := Except.bind_eq_ok_iff.mp hr
  obtain ⟨read, hp, hr⟩ := Except.bind_eq_ok_iff.mp hr
  cases hr
  have hyielded := Projection.allYieldedBy_of_yielded
    (fun _ hi => Projection.each_of_writtenBy hi) htail
  exact ⟨first, others, _, _, hgiven, Clause.blockSpelledBy hblock text matched hm,
    hyielded text read hp, by simp [hfront]⟩

end Tree

/-! ### Trees of a specification -/

theorem Tree.Condition.orient_unknown {text : List Char} {unknown : String} {left : Nat}
    {path : PathCondition} : Tree.Condition.orient text unknown left ⟨unknown, path.rolesLeft⟩
      ⟨path.labelRight, path.rolesRight⟩ = .ok path := by
  simp [Tree.Condition.orient]

theorem Tree.Condition.orient_exchanged {text : List Char} {unknown : String} {left : Nat}
    {path : PathCondition} (h : path.labelRight ≠ unknown) :
    Tree.Condition.orient text unknown left ⟨path.labelRight, path.rolesRight⟩
      ⟨unknown, path.rolesLeft⟩ = .ok path := by
  simp [Tree.Condition.orient, h]

theorem Tree.Scalar.read_reference_field {name label path : String}
    (h : label.toList.all (· != '.') = true) :
    Tree.Scalar.read name (.reference (label ++ "." ++ path)) = .field name label path := by
  have htext : (label ++ "." ++ path).toList = label.toList ++ '.' :: path.toList := by simp
  have hall : ∀ c ∈ label.toList, (c != '.') = true := by simpa using h
  simp only [Tree.Scalar.read, htext, List.takeWhile_append_of_pos hall,
    List.dropWhile_append_of_pos hall]
  simp

theorem Tree.Scalar.read_reference_fact {name label : String}
    (h : label.toList.all (· != '.') = true) :
    Tree.Scalar.read name (.reference label) = .fact name label := by
  have hall : label.toList.dropWhile (· != '.') = [] :=
    List.dropWhile_eq_nil_iff.mpr (by simpa using h)
  simp only [Tree.Scalar.read, hall]

theorem Projection.exists_scalar {projection : Projection} (h : projection.isPlain = true) :
    ∃ value : Tree.Scalar, value.tokens = projection.scalarTokens ∧
      value.read projection.name = projection := by
  cases projection with
  | field name label path => exact ⟨_, rfl, Tree.Scalar.read_reference_field h⟩
  | hash name label => exact ⟨.hash label, rfl, rfl⟩
  | fact name label => exact ⟨_, rfl, Tree.Scalar.read_reference_fact h⟩
  | nested name block projections => cases h

theorem exists_enclosed {opening inner : List Token} {closing : Char}
    (h : front.map Lexeme.token = opening ++ (inner ++ [.char closing])) :
    ∃ middle : List Lexeme, middle.map Lexeme.token = inner ∧
      ∀ content : List Lexeme → Prop, content middle → Enclosed opening closing content front := by
  obtain ⟨first, behind, rfl, hf, hb⟩ := map_token_eq_append h
  obtain ⟨middle, last, rfl, hm, hl⟩ := map_token_eq_append hb
  exact ⟨middle, hm, fun content hc => ⟨first, middle, last, hf, hc, hl, rfl⟩⟩

theorem PathCondition.exists_writtenBy {path : PathCondition} {unknown : String}
    (h : path.SpelledBy unknown (front.map Lexeme.token)) : ∃ tree : Tree.Condition,
      tree.WrittenBy front ∧ ∀ text, tree.read text unknown = .ok (.path path) := by
  rcases h with h | ⟨hne, h⟩
  · refine ⟨.path _ ⟨unknown, path.rolesLeft⟩ ⟨path.labelRight, path.rolesRight⟩, ⟨rfl, h⟩,
      fun text => ?_⟩
    rw [Tree.Condition.read, Tree.Condition.orient_unknown]
    rfl
  · refine ⟨.path _ ⟨path.labelRight, path.rolesRight⟩ ⟨unknown, path.rolesLeft⟩, ⟨rfl, h⟩,
      fun text => ?_⟩
    rw [Tree.Condition.read, Tree.Condition.orient_exchanged hne]
    rfl

mutual

theorem Condition.exists_writtenBy : ∀ {condition : Condition} {unknown : String}
    {front : List Lexeme}, condition.SpelledBy unknown (front.map Lexeme.token) →
    ∃ tree : Tree.Condition, tree.WrittenBy front ∧ ∀ text, tree.read text unknown = .ok condition
  | .path _, _, _, h => PathCondition.exists_writtenBy h
  | .existential holds block, _, _, h => by
    obtain ⟨inner, hinner, h⟩ := h
    rw [List.append_cons] at h
    obtain ⟨sign, behind, rfl, hsign, hbehind⟩ := map_token_eq_append h
    obtain ⟨middle, rfl, henclosed⟩ := @exists_enclosed behind [.char '\x7b'] _ _ hbehind
    obtain ⟨trees, hw, hread⟩ := Match.exists_allWrittenBy hinner
    refine ⟨.existential holds trees, ⟨sign, behind, hsign, henclosed _ hw, rfl⟩, fun text => ?_⟩
    rw [Tree.Condition.read, hread]
    rfl

theorem Match.exists_allWrittenBy : ∀ {block : List Match} {front : List Lexeme},
    Match.AllSpelledBy block (front.map Lexeme.token) →
    ∃ trees, Tree.Clause.AllWrittenBy trees front ∧
      ∀ text, Tree.Clause.readAll text trees = .ok block
  | [], _, h => ⟨[], List.map_eq_nil_iff.mp h, fun _ => rfl⟩
  | ⟨unknown, conditions⟩ :: rest, _, h => by
    obtain ⟨inner, others, hinner, hothers, h⟩ := h
    obtain ⟨first, behind, rfl, hfirst, rfl⟩ := map_token_eq_append (h.trans
      (by simp : _ = ((unknown.tokens ++ [.char '[']) ++ (inner ++ [.char ']'])) ++ others))
    obtain ⟨middle, rfl, henclosed⟩ := exists_enclosed hfirst
    obtain ⟨trees, hw, hread⟩ := Condition.exists_allWrittenBy hinner
    obtain ⟨clauses, hws, hreads⟩ := Match.exists_allWrittenBy hothers
    refine ⟨⟨unknown, trees⟩ :: clauses, ⟨first, behind, henclosed _ hw, hws, rfl⟩, fun text => ?_⟩
    rw [Tree.Clause.readAll, Tree.Clause.read, hread, hreads]
    rfl

theorem Condition.exists_allWrittenBy : ∀ {conditions : List Condition} {unknown : String}
    {front : List Lexeme}, Condition.AllSpelledBy unknown conditions (front.map Lexeme.token) →
    ∃ trees, Tree.Condition.AllWrittenBy trees front ∧
      ∀ text, Tree.Condition.readAll text unknown trees = .ok conditions
  | [], _, _, h => ⟨[], List.map_eq_nil_iff.mp h, fun _ => rfl⟩
  | condition :: rest, _, _, h => by
    obtain ⟨_, _, hf, ho, h⟩ := h
    obtain ⟨first, others, rfl, rfl, rfl⟩ := map_token_eq_append h
    obtain ⟨tree, hw, hread⟩ := Condition.exists_writtenBy hf
    obtain ⟨trees, hws, hreads⟩ := Condition.exists_allWrittenBy ho
    refine ⟨tree :: trees, ⟨first, others, hw, hws, rfl⟩, fun text => ?_⟩
    rw [Tree.Condition.readAll, hread, hreads]
    rfl

end

theorem Match.exists_blockWrittenBy {block : List Match}
    (h : Match.BlockSpelledBy block (front.map Lexeme.token)) :
    ∃ trees, Tree.Clause.BlockWrittenBy trees front ∧
      ∀ text, Tree.Clause.readAll text trees = .ok block := by
  obtain ⟨_, hinner, h⟩ := h
  obtain ⟨middle, rfl, henclosed⟩ := @exists_enclosed front [.char '\x7b'] _ _ h
  obtain ⟨trees, hw, hread⟩ := Match.exists_allWrittenBy hinner
  exact ⟨trees, henclosed _ hw, hread⟩

theorem Projection.exists_writtenBy_scalar {projection : Projection}
    (h : projection.ScalarSpelledBy (front.map Lexeme.token)) :
    ∃ tree : Tree.Projection, tree.WrittenBy front ∧ ∀ text, tree.read text = .ok projection := by
  obtain ⟨hplain, h⟩ := h
  obtain ⟨value, htokens, hread⟩ := Projection.exists_scalar hplain
  refine ⟨.scalar projection.name value, h.trans (by rw [htokens]), fun text => ?_⟩
  rw [Tree.Projection.read, hread]

theorem exists_yielded {projections : List Projection}
    (hlines : ∀ inner : List Lexeme, Projection.AllSpelledBy projections (inner.map Lexeme.token) →
      ∃ trees, Tree.Projection.AllWrittenBy trees inner ∧
        ∀ text, Tree.Projection.readAll text trees = .ok projections)
    (h : YieldedBy projections (Projection.AllSpelledBy projections) (front.map Lexeme.token)) :
    ∃ trees, Tree.Projection.Yielded trees (Tree.Projection.AllWrittenBy trees) front ∧
      ∀ text, Tree.Projection.readAll text trees = .ok projections := by
  rcases h with ⟨rfl, h⟩ | ⟨single, rfl, hbare, hplain, h⟩ | ⟨_, hinner, h⟩
  · exact ⟨[], Or.inl ⟨rfl, List.map_eq_nil_iff.mp h⟩, fun _ => rfl⟩
  · obtain ⟨value, htokens, hread⟩ := Projection.exists_scalar hplain
    have hname : single.name = "" := by
      cases single <;> simp_all [Projection.isBare, Projection.name]
    refine ⟨[.scalar "" value], Or.inr (Or.inl ⟨value, rfl, h.trans (by rw [htokens])⟩),
      fun text => ?_⟩
    rw [Tree.Projection.readAll, Tree.Projection.read, ← hname, hread]
    rfl
  · obtain ⟨middle, rfl, henclosed⟩ := @exists_enclosed front [.yields, .char '\x7b'] _ _ h
    obtain ⟨trees, hw, hread⟩ := hlines middle hinner
    exact ⟨trees, Or.inr (Or.inr (henclosed _ hw)), hread⟩

mutual

theorem Projection.exists_writtenBy : ∀ {projection : Projection} {front : List Lexeme},
    projection.SpelledBy (front.map Lexeme.token) →
    ∃ tree : Tree.Projection, tree.WrittenBy front ∧ ∀ text, tree.read text = .ok projection
  | .field _ _ _, _, h => Projection.exists_writtenBy_scalar h
  | .hash _ _, _, h => Projection.exists_writtenBy_scalar h
  | .fact _ _, _, h => Projection.exists_writtenBy_scalar h
  | .nested name block projections, _, h => by
    obtain ⟨_, _, _, hs, hb, ht, h⟩ := h
    obtain ⟨left, _, rfl, h1⟩ := map_token_eq_cons h
    obtain ⟨sign, _, rfl, rfl, h2⟩ := map_token_eq_append h1
    obtain ⟨inner, tail, rfl, rfl, rfl⟩ := map_token_eq_append h2
    obtain ⟨clauses, hw, hread⟩ := Match.exists_blockWrittenBy hb
    obtain ⟨trees, hws, hreads⟩ := exists_yielded (fun _ hi => Projection.exists_allWrittenBy hi) ht
    refine ⟨.nested name clauses trees, ⟨[⟨.word name, left⟩], sign, inner, tail, rfl, hs, hw, hws,
      rfl⟩, fun text => ?_⟩
    rw [Tree.Projection.read, hread, hreads]
    rfl

theorem Projection.exists_allWrittenBy : ∀ {projections : List Projection} {front : List Lexeme},
    Projection.AllSpelledBy projections (front.map Lexeme.token) →
    ∃ trees, Tree.Projection.AllWrittenBy trees front ∧
      ∀ text, Tree.Projection.readAll text trees = .ok projections
  | [], _, h => ⟨[], List.map_eq_nil_iff.mp h, fun _ => rfl⟩
  | projection :: rest, _, h => by
    obtain ⟨_, _, hf, ho, h⟩ := h
    obtain ⟨first, others, rfl, rfl, rfl⟩ := map_token_eq_append h
    obtain ⟨tree, hw, hread⟩ := Projection.exists_writtenBy hf
    obtain ⟨trees, hws, hreads⟩ := Projection.exists_allWrittenBy ho
    refine ⟨tree :: trees, ⟨first, others, hw, hws, rfl⟩, fun text => ?_⟩
    rw [Tree.Projection.readAll, hread, hreads]
    rfl

end

/-- **What spells a specification writes a tree of it.** -/
theorem Specification.exists_writtenBy {spec : Specification}
    (h : spec.SpelledBy (front.map Lexeme.token)) :
    ∃ tree : Tree.Specification, tree.WrittenBy front ∧ ∀ text, tree.read text = .ok spec := by
  obtain ⟨given, body, projections⟩ := spec
  obtain ⟨first, others, braced, yielded, hgiven, hb, ht, h⟩ := h
  obtain ⟨labels, behind, rfl, hlabels, hbehind⟩ := map_token_eq_append (h.trans
    (by simp : _ = (.char '(' :: (first.tokens ++ (Label.moreTokens others ++ [.char ')']))) ++
      (braced ++ yielded)))
  obtain ⟨block, tail, rfl, rfl, rfl⟩ := map_token_eq_append hbehind
  obtain ⟨clauses, hw, hread⟩ := Match.exists_blockWrittenBy hb
  obtain ⟨trees, hws, hreads⟩ := exists_yielded (fun _ hi => Projection.exists_allWrittenBy hi) ht
  refine ⟨⟨given, clauses, trees⟩, ⟨first, others, labels, block, tail, hgiven, hlabels, hw, hws,
    rfl⟩, fun text => ?_⟩
  rw [Tree.Specification.read, hread, hreads]
  rfl

end FactGraph

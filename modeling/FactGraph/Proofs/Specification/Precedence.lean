import FactGraph.Proofs.Grammar.Recognised

/-! # The first error of a text

A text that no tree is written by fails in the grammar. Otherwise its tree is read from top to
bottom, and reading stops at the first path condition that leaves out the unknown of its match.
Trees are traversed in the order of their texts, so this is the one that stands first in the text,
at whatever depth of blocks and projections. Only what has been read as a whole is checked.

* `Token.scan_ordered`, `Token.exists_of_mem_scan`: the tokens of a text, and where they stand.
* `Tree.Specification.startIn_paths`: the path conditions of a tree stand in the order of the text.
* `Tree.Reports.bind`: reading one part after the other reports the first stray path condition.
* `Specification.parse_precedence`: **which error a text gives.** -/

namespace FactGraph

/-! ### Where tokens stand -/

namespace Token

theorem scan_ordered : ∀ (cs : List Char) (skip : Nat),
    (scan skip cs.length cs).Pairwise (fun a b => b.left < a.left) ∧
      ∀ l ∈ scan skip cs.length cs, l.left ≤ cs.length
  | [], skip => by simp [scan]
  | c :: cs, skip + 1 => by
    obtain ⟨hordered, hle⟩ := scan_ordered cs skip
    exact ⟨hordered, fun l hl => Nat.le_succ_of_le (hle l hl)⟩
  | c :: cs, 0 => by
    -- whatever is found next starts at the first character or behind it
    have hbehind : ∀ skip, (scan skip cs.length cs).Pairwise (fun a b => b.left < a.left) ∧
        ∀ l ∈ scan skip cs.length cs, l.left ≤ (c :: cs).length := fun skip =>
      ⟨(scan_ordered cs skip).1, fun l hl => Nat.le_succ_of_le ((scan_ordered cs skip).2 l hl)⟩
    have hfirst : ∀ token skip, ((⟨token, (c :: cs).length⟩ : Lexeme) ::
        scan skip cs.length cs).Pairwise (fun a b => b.left < a.left) ∧
          ∀ l ∈ (⟨token, (c :: cs).length⟩ : Lexeme) :: scan skip cs.length cs,
            l.left ≤ (c :: cs).length := fun token skip =>
      ⟨List.pairwise_cons.mpr ⟨fun l hl => Nat.lt_succ_of_le ((scan_ordered cs skip).2 l hl),
        (hbehind skip).1⟩, List.forall_mem_cons.mpr ⟨Nat.le_refl _, (hbehind skip).2⟩⟩
    rw [scan, show (c :: cs).length - 1 = cs.length from rfl]
    split_ifs
    · exact hbehind 0
    · exact hfirst _ _
    · exact hbehind _
    · exact hfirst _ _
    · exact hfirst _ _
    · exact hfirst _ _

theorem exists_of_mem_scan {name : String} {left : Nat} : ∀ (cs : List Char) (skip : Nat),
    ⟨word name, left⟩ ∈ scan skip cs.length cs →
      ∃ before behind, cs = before ++ (name.toList ++ behind) ∧
        left = (name.toList ++ behind).length
  | [], skip, h => by simp [scan] at h
  | c :: cs, skip + 1, h => by
    obtain ⟨before, behind, hcs, hleft⟩ := exists_of_mem_scan cs skip h
    exact ⟨c :: before, behind, by rw [hcs, List.cons_append], hleft⟩
  | c :: cs, 0, h => by
    have hbehind : ∀ skip, (⟨word name, left⟩ : Lexeme) ∈ scan skip cs.length cs →
        ∃ before behind, c :: cs = before ++ (name.toList ++ behind) ∧
          left = (name.toList ++ behind).length := fun skip h => by
      obtain ⟨before, behind, hcs, hleft⟩ := exists_of_mem_scan cs skip h
      exact ⟨c :: before, behind, by rw [hcs, List.cons_append], hleft⟩
    rw [scan, show (c :: cs).length - 1 = cs.length from rfl] at h
    split_ifs at h
    · exact hbehind _ h
    · rcases List.mem_cons.mp h with h | h
      · cases h
        refine ⟨[], cs.dropWhile isWordChar, ?_, ?_⟩
        · simp [List.takeWhile_append_dropWhile]
        · simp [List.takeWhile_append_dropWhile]
      · exact hbehind _ h
    · exact hbehind _ h
    all_goals
      rcases List.mem_cons.mp h with h | h
      · cases h
      · exact hbehind _ h

end Token

namespace Tree

/-! ### Path conditions in their order -/

/-- A path condition at a place, in the match of an unknown. -/
structure PathAt where
  unknown : String
  left : Nat
  first : Side
  second : Side

/-- Neither side of a path condition is labelled with the unknown of its match. -/
def PathAt.IsStray (path : PathAt) : Prop :=
  path.first.label ≠ path.unknown ∧ path.second.label ≠ path.unknown

instance : DecidablePred PathAt.IsStray := fun path => by
  unfold PathAt.IsStray
  infer_instance

/-- The first token of a path condition. -/
def PathAt.start (path : PathAt) : Lexeme := ⟨.word path.first.label, path.left⟩

/-- The error that a path condition leaves out the unknown of its match. -/
def PathAt.error (text : List Char) (path : PathAt) : SpecificationError :=
  .unrelatedPath (Position.ofLeft text path.left) path.unknown

mutual

/-- The path conditions in a condition on an unknown, at any depth. -/
def Condition.paths (unknown : String) : Condition → List PathAt
  | .path left first second => [⟨unknown, left, first, second⟩]
  | .existential _ block => Clause.pathsAll block

/-- The path conditions in clauses, at any depth. -/
def Clause.pathsAll : List Clause → List PathAt
  | [] => []
  | ⟨unknown, conditions⟩ :: rest =>
    Condition.pathsAll unknown.name conditions ++ Clause.pathsAll rest

/-- The path conditions in conditions on an unknown, at any depth. -/
def Condition.pathsAll (unknown : String) : List Condition → List PathAt
  | [] => []
  | condition :: rest => condition.paths unknown ++ Condition.pathsAll unknown rest

end

mutual

/-- The path conditions in the matches of a projection, at any depth. -/
def Projection.paths : Projection → List PathAt
  | .scalar _ _ => []
  | .nested _ block projections => Clause.pathsAll block ++ Projection.pathsAll projections

/-- The path conditions in the matches of projections, at any depth. -/
def Projection.pathsAll : List Projection → List PathAt
  | [] => []
  | projection :: rest => projection.paths ++ Projection.pathsAll rest

end

/-- The path conditions of a tree, in its matches and in those of its projections. -/
def Specification.paths (tree : Specification) : List PathAt :=
  Clause.pathsAll tree.body ++ Projection.pathsAll tree.projections

/-- Path conditions start with some of the tokens, in their order. -/
def StartIn (paths : List PathAt) (lexemes : List Lexeme) : Prop :=
  (paths.map PathAt.start).Sublist lexemes

theorem StartIn.append {paths paths' : List PathAt} {lexemes lexemes' : List Lexeme}
    (h : StartIn paths lexemes) (h' : StartIn paths' lexemes') :
    StartIn (paths ++ paths') (lexemes ++ lexemes') := by
  unfold StartIn
  rw [List.map_append]
  exact List.Sublist.append h h'

theorem StartIn.behind {paths : List PathAt} {front lexemes : List Lexeme}
    (h : StartIn paths lexemes) : StartIn paths (front ++ lexemes) :=
  h.trans (List.sublist_append_right _ _)

theorem StartIn.enclosed {paths : List PathAt} {opening : List Token} {closing : Char}
    {content : List Lexeme → Prop} {lexemes : List Lexeme}
    (h : Enclosed opening closing content lexemes)
    (hc : ∀ inner, content inner → StartIn paths inner) : StartIn paths lexemes := by
  obtain ⟨front, inner, back, -, hinner, -, rfl⟩ := h
  exact StartIn.behind ((hc inner hinner).trans (List.sublist_append_left _ _))

mutual

theorem Condition.startIn_paths {unknown : String} : ∀ {condition : Condition}
    {lexemes : List Lexeme}, condition.WrittenBy lexemes →
      StartIn (condition.paths unknown) lexemes
  | .path left first second, lexemes, h => by
    obtain ⟨rfl, htokens⟩ := h
    obtain ⟨l, others, rfl, -⟩ := map_token_eq_cons htokens
    exact List.singleton_sublist.mpr List.mem_cons_self
  | .existential holds block, _, h => by
    obtain ⟨front, inner, -, hinner, rfl⟩ := h
    exact StartIn.behind (StartIn.enclosed hinner fun _ hi => Clause.startIn_pathsAll hi)

theorem Clause.startIn_pathsAll : ∀ {block : List Clause} {lexemes : List Lexeme},
    Clause.AllWrittenBy block lexemes → StartIn (Clause.pathsAll block) lexemes
  | [], _, _ => List.nil_sublist _
  | ⟨unknown, conditions⟩ :: rest, _, h => by
    obtain ⟨first, others, hf, ho, rfl⟩ := h
    exact (StartIn.enclosed hf fun _ hi => Condition.startIn_pathsAll hi).append
      (Clause.startIn_pathsAll ho)

theorem Condition.startIn_pathsAll {unknown : String} : ∀ {conditions : List Condition}
    {lexemes : List Lexeme}, Condition.AllWrittenBy conditions lexemes →
      StartIn (Condition.pathsAll unknown conditions) lexemes
  | [], _, _ => List.nil_sublist _
  | condition :: rest, _, h => by
    obtain ⟨first, others, hf, ho, rfl⟩ := h
    exact (Condition.startIn_paths hf).append (Condition.startIn_pathsAll ho)

end

theorem Clause.startIn_block {block : List Clause} {lexemes : List Lexeme}
    (h : Clause.BlockWrittenBy block lexemes) : StartIn (Clause.pathsAll block) lexemes :=
  StartIn.enclosed h fun _ hi => Clause.startIn_pathsAll hi

theorem Projection.startIn_yielded {projections : List Projection} {lexemes : List Lexeme}
    (hlines : ∀ inner, Projection.AllWrittenBy projections inner →
      StartIn (Projection.pathsAll projections) inner)
    (h : Projection.Yielded projections (Projection.AllWrittenBy projections) lexemes) :
    StartIn (Projection.pathsAll projections) lexemes := by
  rcases h with ⟨rfl, rfl⟩ | ⟨value, rfl, -⟩ | h
  · exact List.nil_sublist _
  · exact List.nil_sublist _
  · exact StartIn.enclosed h hlines

mutual

theorem Projection.startIn_paths : ∀ {projection : Projection} {lexemes : List Lexeme},
    projection.WrittenBy lexemes → StartIn projection.paths lexemes
  | .scalar _ _, _, _ => List.nil_sublist _
  | .nested name block projections, _, h => by
    obtain ⟨front, sign, inner, tail, -, -, hinner, htail, rfl⟩ := h
    have hyielded := Projection.startIn_yielded (fun _ hi => Projection.startIn_pathsAll hi) htail
    exact StartIn.behind (StartIn.behind ((Clause.startIn_block hinner).append hyielded))

theorem Projection.startIn_pathsAll : ∀ {projections : List Projection} {lexemes : List Lexeme},
    Projection.AllWrittenBy projections lexemes →
      StartIn (Projection.pathsAll projections) lexemes
  | [], _, _ => List.nil_sublist _
  | projection :: rest, _, h => by
    obtain ⟨first, others, hf, ho, rfl⟩ := h
    exact (Projection.startIn_paths hf).append (Projection.startIn_pathsAll ho)

end

/-- **The path conditions of a tree stand in the order of the text.** -/
theorem Specification.startIn_paths {tree : Specification} {lexemes : List Lexeme}
    (h : tree.WrittenBy lexemes) : StartIn tree.paths lexemes := by
  obtain ⟨first, others, front, block, tail, -, -, hblock, htail, rfl⟩ := h
  exact StartIn.behind ((Clause.startIn_block hblock).append
    (Projection.startIn_yielded (fun _ hi => Projection.startIn_pathsAll hi) htail))

/-! ### Reading in order -/

/-- Reading has come to some path conditions, one after the other: it fails with the error of the
first stray one, and succeeds if there is none. -/
def Reports {α : Type} (text : List Char) (paths : List PathAt)
    (x : Except SpecificationError α) : Prop :=
  match paths.find? fun path => decide path.IsStray with
  | some stray => x = .error (stray.error text)
  | none => ∃ a, x = .ok a

variable {α β : Type} {text : List Char} {paths paths' : List PathAt}

theorem Reports.pure (a : α) : Reports text [] (.ok a) := ⟨a, rfl⟩

/-- **Reading one part after the other reports the first stray path condition** of both. -/
theorem Reports.bind {x : Except SpecificationError α} {f : α → Except SpecificationError β}
    (h : Reports text paths x) (hf : ∀ a, Reports text paths' (f a)) :
    Reports text (paths ++ paths') (x >>= f) := by
  unfold Reports at h ⊢
  rw [List.find?_append]
  rcases hfind : paths.find? fun path => decide path.IsStray with _ | stray <;>
    simp only [hfind, Option.none_or, Option.some_or] at h ⊢
  · obtain ⟨a, rfl⟩ := h
    exact hf a
  · rw [h]
    rfl

theorem Reports.map {x : Except SpecificationError α} (h : Reports text paths x) (f : α → β) :
    Reports text paths (x >>= fun a => .ok (f a)) := by
  have hbind : Reports text (paths ++ []) (x >>= fun a => .ok (f a)) := h.bind fun a => .pure (f a)
  rwa [List.append_nil] at hbind

theorem Condition.reports_orient {unknown : String} {left : Nat} {first second : Side} :
    Reports text [⟨unknown, left, first, second⟩]
      (Condition.orient text unknown left first second) := by
  unfold Reports Condition.orient
  by_cases hf : first.label = unknown
  · simp [hf, PathAt.IsStray]
  · by_cases hs : second.label = unknown
    · simp [hf, hs, PathAt.IsStray]
    · simp [hf, hs, PathAt.IsStray, PathAt.error]

mutual

theorem Condition.reports_read : ∀ (condition : Condition) (unknown : String),
    Reports text (condition.paths unknown) (condition.read text unknown)
  | .path _ _ _, _ => Condition.reports_orient.map _
  | .existential _ block, _ => (Clause.reports_readAll block).map _

theorem Clause.reports_readAll : ∀ block : List Clause,
    Reports text (Clause.pathsAll block) (Clause.readAll text block)
  | [] => .pure []
  | ⟨unknown, conditions⟩ :: rest =>
    ((Condition.reports_readAll conditions unknown.name).map (Match.mk unknown)).bind fun m =>
      (Clause.reports_readAll rest).map (m :: ·)

theorem Condition.reports_readAll : ∀ (conditions : List Condition) (unknown : String),
    Reports text (Condition.pathsAll unknown conditions) (Condition.readAll text unknown conditions)
  | [], _ => .pure []
  | condition :: rest, unknown => (condition.reports_read unknown).bind fun c =>
    (Condition.reports_readAll rest unknown).map (c :: ·)

end

mutual

theorem Projection.reports_read : ∀ projection : Projection,
    Reports text projection.paths (projection.read text)
  | .scalar name value => .pure (value.read name)
  | .nested name block projections => (Clause.reports_readAll block).bind fun matched =>
    (Projection.reports_readAll projections).map (FactGraph.Projection.nested name matched)

theorem Projection.reports_readAll : ∀ projections : List Projection,
    Reports text (Projection.pathsAll projections) (Projection.readAll text projections)
  | [] => .pure []
  | projection :: rest => projection.reports_read.bind fun p =>
    (Projection.reports_readAll rest).map (p :: ·)

end

/-- **Reading a tree reports its first stray path condition.** -/
theorem Specification.reports_read (tree : Specification) :
    Reports text tree.paths (tree.read text) :=
  (Clause.reports_readAll tree.body).bind fun body =>
    (Projection.reports_readAll tree.projections).map
      (FactGraph.Specification.mk tree.given body)

/-! ### The first stray path condition -/

/-- A path condition is the first one of a tree that is stray: every other one stands closer to the
end of the text. -/
def Specification.FirstStray (tree : Specification) (stray : PathAt) : Prop :=
  stray ∈ tree.paths ∧ stray.IsStray ∧
    ∀ other ∈ tree.paths, other.IsStray → other = stray ∨ other.left < stray.left

/-- A path condition starts with the label of its first side at a position of a text. -/
def PathAt.StartsAt (path : PathAt) (text : List Char) (position : Position) : Prop :=
  ∃ before behind, text = before ++ (path.first.label.toList ++ behind) ∧
    path.left = (path.first.label.toList ++ behind).length ∧ position = Position.after before

/-- The path conditions of a written tree start at their places, one behind the other. -/
theorem Specification.paths_ordered {tree : Specification}
    (h : tree.WrittenBy (Token.ofText text)) : tree.paths.Pairwise fun a b => b.left < a.left :=
  List.pairwise_map.mp ((Token.scan_ordered text 0).1.sublist (startIn_paths h))

theorem Specification.startsAt_of_mem_paths {tree : Specification} {path : PathAt}
    (h : tree.WrittenBy (Token.ofText text)) (hp : path ∈ tree.paths) :
    path.StartsAt text (Position.ofLeft text path.left) := by
  obtain ⟨before, behind, htext, hleft⟩ := Token.exists_of_mem_scan text 0
    ((startIn_paths h).subset (List.mem_map_of_mem hp))
  refine ⟨before, behind, htext, hleft, ?_⟩
  rw [Position.ofLeft, hleft, htext, List.length_append, Nat.add_sub_cancel, List.take_left]

theorem Specification.firstStray_of_find? {tree : Specification} {stray : PathAt}
    (h : tree.WrittenBy (Token.ofText text))
    (hfind : tree.paths.find? (fun path => decide path.IsStray) = some stray) :
    tree.FirstStray stray := by
  obtain ⟨hstray, front, behind, hpaths, hfront⟩ := List.find?_eq_some_iff_append.mp hfind
  have hordered := paths_ordered h
  rw [hpaths, List.pairwise_append, List.pairwise_cons] at hordered
  refine ⟨List.mem_of_find?_eq_some hfind, of_decide_eq_true hstray, fun other ho hs => ?_⟩
  rw [hpaths] at ho
  rcases List.mem_append.mp ho with ho | ho
  · exact absurd hs (by simpa using hfront other ho)
  · rcases List.mem_cons.mp ho with rfl | ho
    · exact .inl rfl
    · exact .inr (hordered.2.1.1 other ho)

end Tree

namespace Specification

/-- A text that no tree is written by fails in the grammar; any other one has exactly one tree. -/
theorem treeOf_cases (text : List Char) :
    ((∀ tree : Tree.Specification, ¬ tree.WrittenBy (Token.ofText text)) ∧
      ∃ position rules, treeOf text = .error (.expected position rules)) ∨
    ∃ tree : Tree.Specification, tree.WrittenBy (Token.ofText text) ∧
      (∀ other : Tree.Specification, other.WrittenBy (Token.ofText text) → other = tree) ∧
      treeOf text = .ok tree := by
  rcases htree : treeOf text with error | tree
  · refine .inl ⟨fun tree hw => ?_, ?_⟩
    · rw [treeOf_eq_ok_iff.mpr hw] at htree
      cases htree
    · unfold treeOf at htree
      split at htree
      · cases htree
      · cases htree
        exact ⟨_, _, rfl⟩
  · refine .inr ⟨tree, treeOf_eq_ok_iff.mp htree, fun other ho => ?_, rfl⟩
    rw [treeOf_eq_ok_iff.mpr ho] at htree
    exact Except.ok.inj htree

/-- **Which error a text gives.** A text that no tree is written by fails in the grammar. Otherwise
there is one tree, and the error is that of the first stray path condition, at the position where it
starts. Only if there is none, the specification that the tree stands for is checked. -/
theorem parse_precedence (text : String) :
    ((∀ tree : Tree.Specification, ¬ tree.WrittenBy (Token.ofText text.toList)) ∧
      ∃ position rules, parse text = .error (.expected position rules)) ∨
    ∃ tree : Tree.Specification, tree.WrittenBy (Token.ofText text.toList) ∧
      (∀ other : Tree.Specification, other.WrittenBy (Token.ofText text.toList) → other = tree) ∧
      ((∃ stray position, tree.FirstStray stray ∧ stray.StartsAt text.toList position ∧
          parse text = .error (.unrelatedPath position stray.unknown) ∧
          (SpecificationError.unrelatedPath position stray.unknown).message =
            SpecificationError.parseMessage position
              ("path condition must refer to " ++ stray.unknown)) ∨
        ((∀ path ∈ tree.paths, ¬ path.IsStray) ∧
          ∃ spec, tree.read text.toList = .ok spec ∧
            parse text = spec.check.map fun _ => spec)) := by
  unfold parse ofChars
  rcases treeOf_cases text.toList with ⟨hnone, position, rules, hgrammar⟩ | ⟨tree, hw, hu, htree⟩
  · exact .inl ⟨hnone, position, rules, by rw [hgrammar]; rfl⟩
  · refine .inr ⟨tree, hw, hu, ?_⟩
    have hreports : Tree.Reports text.toList tree.paths (tree.read text.toList) := tree.reports_read
    unfold Tree.Reports at hreports
    split at hreports
    · next stray hfind =>
      have hmem : stray ∈ tree.paths := List.mem_of_find?_eq_some hfind
      refine .inl ⟨stray, Position.ofLeft text.toList stray.left,
        Tree.Specification.firstStray_of_find? hw hfind,
        Tree.Specification.startsAt_of_mem_paths hw hmem, ?_, rfl⟩
      simp [htree, hreports, bind, Except.bind, Tree.PathAt.error]
    · next hnone =>
      obtain ⟨spec, hspec⟩ := hreports
      refine .inr ⟨fun path hp => ?_, spec, hspec, ?_⟩
      · simpa using List.find?_eq_none.mp hnone path hp
      · simp only [bind, Except.bind, htree, hspec]
        cases spec.check <;> rfl

/-- The label that is not defined is not reported: the check comes last. -/
example : parse ("(blog: Blog) \x7b\n  post: Post [ blog = blog ]\n" ++
    "  tag: Tag [ tag = nothing ]\n\x7d") = .error (.unrelatedPath ⟨2, 16⟩ "post") := by
  decide +kernel

end Specification

end FactGraph

import FactGraph.Proofs.Except
import FactGraph.Proofs.Grammar.Printed
import FactGraph.Proofs.Grammar.Repetition
import FactGraph.Proofs.Specification.Accepted

/-! # The names in what is read

Every word of a text is a word of the language, so all names that the grammar takes from it are. A
tree is printable if whatever it stands for is: the sides of a path condition may be exchanged, and
a scalar reference is split at its first dot, but the parts are words again. Only a scalar that
stands alone behind the arrow has no name.

* `Parser.keeps_matchBlock`: the trees of blocks are printable.
* `Tree.Scalar.isPrintable_read`: what scalars stand for is printable.
* `Parser.keeps_projectionBlock`: the trees of projections are printable.
* `Specification.isPrintable_of_ofChars`: what is accepted is printable. -/

namespace FactGraph

/-! ### Printable trees -/

namespace Tree

/-- Whatever the condition stands for is printable. -/
def Condition.Printable (tree : Condition) : Prop :=
  ∀ text unknown condition, tree.read text unknown = .ok condition → condition.isPrintable = true

/-- Whatever the clauses stand for is printable. -/
def Clause.AllPrintable (trees : List Clause) : Prop :=
  ∀ text block, Clause.readAll text trees = .ok block → Match.allPrintable block = true

/-- Whatever the projection stands for is printable where it has a name. -/
def Projection.Printable (tree : Projection) : Prop :=
  ∀ text projection, tree.read text = .ok projection → projection.isPrintable false = true

/-- Whatever the projections stand for is printable. -/
def Projection.AllPrintable (trees : List Projection) : Prop :=
  ∀ text projections, Projection.readAll text trees = .ok projections →
    Projection.allPrintable (projections.length == 1) projections = true

/-- The label of a side and its roles are words. -/
def Side.isPrintable (side : Side) : Bool :=
  Token.isWord side.label && side.roles.all Role.isPrintable

/-- A path condition is printable if both of its sides are, whichever is the unknown's. -/
theorem Condition.printable_path {left : Nat} {first second : Side}
    (hf : first.isPrintable = true) (hs : second.isPrintable = true) :
    (Condition.path left first second).Printable := by
  intro text unknown condition h
  obtain ⟨path, hp, hc⟩ := Except.bind_eq_ok_iff.mp h
  cases hc
  simp only [Side.isPrintable, Bool.and_eq_true] at hf hs
  unfold Condition.orient at hp
  split_ifs at hp
  · cases hp
    simp [Condition.isPrintable, PathCondition.isPrintable, hf.2, hs.1, hs.2]
  · cases hp
    simp [Condition.isPrintable, PathCondition.isPrintable, hs.2, hf.1, hf.2]

theorem Condition.printable_existential {holds : Bool} {block : List Clause}
    (h : Clause.AllPrintable block) : (Condition.existential holds block).Printable := by
  intro text unknown condition hr
  obtain ⟨matched, hm, hc⟩ := Except.bind_eq_ok_iff.mp hr
  cases hc
  exact h text matched hm

theorem Condition.allPrintable_of_readAll {text : List Char} {unknown : String} :
    ∀ {trees : List Condition} {conditions : List FactGraph.Condition},
    (∀ tree ∈ trees, tree.Printable) → Condition.readAll text unknown trees = .ok conditions →
    Condition.allPrintable conditions = true
  | [], _, _, hr => by
    cases hr
    rfl
  | tree :: rest, _, h, hr => by
    obtain ⟨condition, hc, hr⟩ := Except.bind_eq_ok_iff.mp hr
    obtain ⟨others, ho, hr⟩ := Except.bind_eq_ok_iff.mp hr
    cases hr
    obtain ⟨hfirst, hrest⟩ := List.forall_mem_cons.mp h
    exact Bool.and_eq_true_iff.mpr
      ⟨hfirst text unknown condition hc, Condition.allPrintable_of_readAll hrest ho⟩

theorem Clause.allPrintable_of_forall : ∀ {trees : List Clause},
    (∀ tree ∈ trees, tree.unknown.isPrintable = true ∧ ∀ c ∈ tree.conditions, c.Printable) →
    Clause.AllPrintable trees
  | [], _, _, _, hr => by
    cases hr
    rfl
  | ⟨unknown, conditions⟩ :: rest, h, text, block, hr => by
    obtain ⟨m, hm, hr⟩ := Except.bind_eq_ok_iff.mp hr
    obtain ⟨others, ho, hr⟩ := Except.bind_eq_ok_iff.mp hr
    cases hr
    obtain ⟨read, hc, hm⟩ := Except.bind_eq_ok_iff.mp hm
    cases hm
    obtain ⟨⟨hunknown, hconditions⟩, hrest⟩ := List.forall_mem_cons.mp h
    simp only [Match.allPrintable, Bool.and_eq_true]
    exact ⟨⟨hunknown, Condition.allPrintable_of_readAll hconditions hc⟩,
      Clause.allPrintable_of_forall hrest text others ho⟩

end Tree

/-! ### Scalars -/

theorem all_isWordChar_of_isWord {name : String} (h : Token.isWord name = true) :
    name.toList.all Token.isWordChar = true := by
  unfold Token.isWord at h
  rcases hn : name.toList with _ | ⟨c, cs⟩
  · rfl
  · simp only [hn, Bool.and_eq_true] at h
    have hc : Token.isWordChar c = true := by
      simp only [Token.isWordStart, Token.isWordChar, Char.isAlphanum, Bool.or_eq_true] at h ⊢
      exact Or.inl (h.1.imp_left Or.inl)
    rw [List.all_cons, hc, h.2, Bool.and_self]

theorem isPlainWord_takeWhile {name : String} (h : Token.isWord name = true) :
    isPlainWord (String.ofList (name.toList.takeWhile (· != '.'))) = true := by
  unfold Token.isWord at h
  rcases hn : name.toList with _ | ⟨c, cs⟩
  · simp [hn] at h
  · simp only [hn, Bool.and_eq_true] at h
    -- a word starts with no dot, so there is something in front of the first one
    have hc : (c != '.') = true := by
      rw [bne_iff_ne]
      rintro rfl
      exact absurd h.1 (by decide)
    have hall : (cs.takeWhile (· != '.')).all Token.isWordChar = true := by
      refine List.all_eq_true.mpr fun d hd => ?_
      exact List.all_eq_true.mp h.2 d (List.takeWhile_subset _ hd)
    have hplain : (cs.takeWhile (· != '.')).all (· != '.') = true := List.all_takeWhile
    rw [List.takeWhile_cons, if_pos hc, isPlainWord, Token.isWord_ofList, h.1, hall,
      String.toList_ofList, List.all_cons, hc, hplain]
    rfl

/-- The word of a scalar. -/
def Tree.Scalar.word : Tree.Scalar → String
  | hash label => label
  | reference path => path

/-- **What a scalar stands for is printable** under a name that is. -/
theorem Tree.Scalar.isPrintable_read {alone : Bool} {name : String}
    (hn : isScalarName alone name = true) : ∀ {value : Tree.Scalar},
    Token.isWord value.word = true → (value.read name).isPrintable alone = true
  | .hash label, h => by
    have hlabel : Token.isWord label = true := h
    simp only [Scalar.read, Projection.isPrintable, hn, hlabel, Bool.and_self]
  | .reference path, h => by
    have hpath : Token.isWord path = true := h
    have hlabel := isPlainWord_takeWhile hpath
    have hsplit : path.toList.takeWhile (· != '.') ++ path.toList.dropWhile (· != '.') = path.toList :=
      List.takeWhile_append_dropWhile
    rw [Scalar.read]
    rcases hrest : path.toList.dropWhile (· != '.') with _ | ⟨dot, rest⟩
    · rw [hrest, List.append_nil] at hsplit
      rw [hsplit, String.ofList_toList] at hlabel
      simp only [Projection.isPrintable, hn, hlabel, Bool.and_self]
    -- a field may have dots again, or be empty
    · have hfield : rest.all Token.isWordChar = true := by
        have hall := all_isWordChar_of_isWord hpath
        rw [← hsplit, hrest, List.all_append, List.all_cons] at hall
        exact (Bool.and_eq_true_iff.mp (Bool.and_eq_true_iff.mp hall).2).2
      simp only [Projection.isPrintable, hn, hlabel, hfield, String.toList_ofList, Bool.and_self]

theorem Projection.isPrintable_of_false {projection : Projection}
    (h : projection.isPrintable false = true) : ∀ alone, projection.isPrintable alone = true
  | false => h
  | true => by cases projection <;> simp_all [Projection.isPrintable, isScalarName]

namespace Tree.Projection

theorem printable_scalar {name : String} {value : Scalar} (hn : Token.isWord name = true)
    (hv : Token.isWord value.word = true) : (Projection.scalar name value).Printable := by
  intro text projection h
  cases h
  exact Scalar.isPrintable_read (by simp [isScalarName, hn]) hv

theorem printable_nested {name : String} {block : List Clause} {projections : List Projection}
    (hn : Token.isWord name = true) (hb : Clause.AllPrintable block)
    (hp : AllPrintable projections) : (Projection.nested name block projections).Printable := by
  intro text projection h
  obtain ⟨matched, hm, h⟩ := Except.bind_eq_ok_iff.mp h
  obtain ⟨inner, hi, h⟩ := Except.bind_eq_ok_iff.mp h
  cases h
  simp only [FactGraph.Projection.isPrintable, hn, hb text matched hm, hp text inner hi,
    Bool.and_self]

theorem allPrintable_bare {value : Scalar} (hv : Token.isWord value.word = true) :
    AllPrintable [.scalar "" value] := by
  intro text projections h
  cases h
  have hvalue : (value.read "").isPrintable true = true := Scalar.isPrintable_read rfl hv
  simp [FactGraph.Projection.allPrintable, hvalue]

theorem allPrintable_of_forall {trees : List Projection} (h : ∀ tree ∈ trees, tree.Printable) :
    AllPrintable trees := by
  intro text projections hr
  generalize (projections.length == 1) = alone
  induction trees generalizing projections with
  | nil =>
    cases hr
    rfl
  | cons tree rest ih =>
    obtain ⟨projection, hp, hr⟩ := Except.bind_eq_ok_iff.mp hr
    obtain ⟨others, ho, hr⟩ := Except.bind_eq_ok_iff.mp hr
    cases hr
    obtain ⟨hfirst, hrest⟩ := List.forall_mem_cons.mp h
    have hprintable := projection.isPrintable_of_false (hfirst text projection hp) alone
    simp only [FactGraph.Projection.allPrintable, hprintable, ih hrest others ho, Bool.and_self]

end Tree.Projection

/-! ### Readers -/

namespace Parser

theorem keeps_printableLabel : Keeps ProperWord (fun label => label.isPrintable = true) label := by
  intro tokens label rest ht hr
  obtain ⟨hlabel, hrest⟩ := keeps_label _ _ _ ht hr
  exact ⟨Bool.and_eq_true_iff.mpr hlabel, hrest⟩

theorem keeps_role : Keeps ProperWord (fun role => role.isPrintable = true) role := by
  refine Keeps.rule ((keeps_token _).bind fun _ _ => keeps_identifier.bind fun name hn => ?_)
  refine (keeps_sign _).bind fun _ _ => keeps_identifier.bind fun target ht => keeps_pure ?_
  exact Bool.and_eq_true_iff.mpr ⟨hn, ht⟩

theorem keeps_side : Keeps ProperWord (fun side => side.isPrintable = true) side := by
  refine Keeps.rule (keeps_identifier.bind fun label hl => keeps_role.many.bind fun roles hr => ?_)
  exact keeps_pure (Bool.and_eq_true_iff.mpr ⟨hl, List.all_eq_true.mpr hr⟩)

theorem keeps_equals : Keeps ProperWord (fun _ => True) equals := by
  intro tokens u rest ht hr
  unfold Reads equals at hr
  split at hr
  · cases hr
    exact ⟨trivial, fun l hl => ht l (List.mem_cons_of_mem _ hl)⟩
  · cases hr
    refine ⟨trivial, fun l hl => ?_⟩
    rcases List.mem_cons.mp hl with rfl | hl
    · intro name hn
      cases hn
    · exact ht l (List.mem_cons_of_mem _ hl)
  · cases hr

theorem keeps_existsSign : Keeps ProperWord (fun _ => True) existsSign := by
  intro tokens u rest ht hr
  obtain ⟨left, rfl⟩ := eq_of_reads_existsSign hr
  exact ⟨trivial, fun l hl => ht l (List.mem_cons_of_mem _ hl)⟩

theorem keeps_pathCondition : Keeps ProperWord Tree.Condition.Printable pathCondition := by
  intro tokens
  refine Keeps.rule (keeps_side.bind fun first hf => ?_) tokens
  refine keeps_equals.bind fun _ _ => keeps_side.bind fun second hs => keeps_pure ?_
  exact Tree.Condition.printable_path hf hs

theorem keeps_condition {block : Parser (List Tree.Clause)}
    (h : Keeps ProperWord Tree.Clause.AllPrintable block) :
    Keeps ProperWord Tree.Condition.Printable (condition block) := by
  have hblock : ∀ holds, Keeps ProperWord Tree.Condition.Printable
      (block >>= fun trees => pure (.existential holds trees)) := fun holds =>
    h.bind fun trees ht => keeps_pure (Tree.Condition.printable_existential ht)
  refine Keeps.orElse (Keeps.rule ?_) (Keeps.orElse (Keeps.rule ?_) keeps_pathCondition)
  · exact (keeps_sign _).bind fun _ _ => keeps_existsSign.bind fun _ _ => hblock false
  · exact keeps_existsSign.bind fun _ _ => hblock true

/-- **The trees of blocks are printable.** -/
theorem keeps_matchBlock : ∀ depth,
    Keeps ProperWord Tree.Clause.AllPrintable (matchBlock depth)
  | 0 => fun _ _ _ _ hr => by cases hr
  | depth + 1 => by
    have hclause : Keeps ProperWord
        (fun tree => tree.unknown.isPrintable = true ∧ ∀ c ∈ tree.conditions, c.Printable)
        (clause (matchBlock depth)) := by
      refine Keeps.rule (keeps_printableLabel.bind fun unknown hu => ?_)
      refine (keeps_sign _).bind fun _ _ =>
        (keeps_condition (keeps_matchBlock depth)).many.bind fun conditions hc => ?_
      exact (keeps_sign _).bind fun _ _ => keeps_pure ⟨hu, hc⟩
    refine Keeps.rule ((keeps_sign _).bind fun _ _ => hclause.many.bind fun clauses hc => ?_)
    exact (keeps_sign _).bind fun _ _ => keeps_pure (Tree.Clause.allPrintable_of_forall hc)

theorem keeps_scalar :
    Keeps ProperWord (fun value : Tree.Scalar => Token.isWord value.word = true) scalar := by
  refine Keeps.orElse (Keeps.rule ?_) (Keeps.rule ?_)
  · exact (keeps_sign _).bind fun _ _ => keeps_identifier.bind fun label hl => keeps_pure hl
  · exact keeps_identifier.bind fun path hp => keeps_pure hp

theorem keeps_yielded {projection : Parser (List Tree.Projection)}
    (h : Keeps ProperWord Tree.Projection.AllPrintable projection) :
    Keeps ProperWord Tree.Projection.AllPrintable (yielded projection) := by
  have harrow : Keeps ProperWord Tree.Projection.AllPrintable
      (token .yields >>= fun _ => projection) := (keeps_token _).bind fun _ _ => h
  refine harrow.optional.bind fun read hr => keeps_pure ?_
  rcases read with _ | trees
  · exact Tree.Projection.allPrintable_of_forall (by simp)
  · exact hr trees rfl

/-- **The trees of projections are printable.** -/
theorem keeps_projectionBlock {block : Parser (List Tree.Clause)}
    (h : Keeps ProperWord Tree.Clause.AllPrintable block) : ∀ depth,
    Keeps ProperWord Tree.Projection.AllPrintable (projectionBlock block depth)
  | 0 => fun _ _ _ _ hr => by cases hr
  | depth + 1 => by
    have hnested : Keeps ProperWord
        (fun read => Tree.Clause.AllPrintable read.1 ∧ Tree.Projection.AllPrintable read.2)
        (specificationProjection block (projectionBlock block depth)) := by
      refine Keeps.rule (h.bind fun clauses hc => ?_)
      exact (keeps_yielded (keeps_projectionBlock h depth)).bind fun trees ht =>
        keeps_pure ⟨hc, ht⟩
    have hnamed : Keeps ProperWord Tree.Projection.Printable
        (namedProjection block (projectionBlock block depth)) := by
      refine Keeps.rule (keeps_identifier.bind fun name hn => Keeps.orElse ?_ ?_)
      · exact keeps_equals.optional.bind fun _ _ => hnested.bind fun read hr =>
          keeps_pure (Tree.Projection.printable_nested hn hr.1 hr.2)
      · exact keeps_equals.bind fun _ _ => keeps_scalar.bind fun value hv =>
          keeps_pure (Tree.Projection.printable_scalar hn hv)
    refine Keeps.rule (Keeps.orElse ?_ ?_)
    · refine (keeps_sign _).bind fun _ _ => hnamed.many.bind fun trees ht => ?_
      exact (keeps_sign _).bind fun _ _ =>
        keeps_pure (Tree.Projection.allPrintable_of_forall ht)
    · exact keeps_scalar.bind fun value hv =>
        keeps_pure (Tree.Projection.allPrintable_bare hv)

theorem keeps_endOfText : Keeps ProperWord (fun _ => True) endOfText := by
  intro tokens u rest _ hr
  rcases tokens with _ | ⟨l, tokens⟩ <;> cases hr
  exact ⟨trivial, by simp⟩

theorem keeps_specification (depth left : Nat) : Keeps ProperWord
    (fun tree : Tree.Specification => Tree.Clause.AllPrintable tree.body ∧
      Tree.Projection.AllPrintable tree.projections) (specification depth left) := by
  have hmore : Keeps ProperWord _ (sign ',' >>= fun _ => label) :=
    (keeps_sign _).bind fun _ _ => keeps_label
  refine Keeps.ruleAt ((keeps_sign _).bind fun _ _ => keeps_label.bind fun first _ => ?_)
  refine hmore.many.bind fun others _ => (keeps_sign _).bind fun _ _ => ?_
  refine (keeps_matchBlock depth).bind fun body hb => ?_
  refine (keeps_yielded (keeps_projectionBlock (keeps_matchBlock depth) depth)).bind
    fun projections hp => keeps_endOfText.rule.bind fun _ _ => keeps_pure ?_
  exact ⟨hb, hp⟩

end Parser

/-! ### Specifications -/

/-- **What is accepted is printable.** -/
theorem Specification.isPrintable_of_ofChars {text : List Char} {spec : Specification}
    (h : ofChars text = .ok spec) : spec.isPrintable = true := by
  obtain ⟨tree, rest, hr, hread, -⟩ := of_ofChars h
  have hwords : ∀ l ∈ Token.ofText text, Parser.ProperWord l := fun l hl =>
    Token.isWord_of_mem_scan _ _ _ l hl
  obtain ⟨hgiven, hlabels⟩ := Parser.given_of_reads_specification hwords hr
  obtain ⟨⟨hbody, hprojections⟩, -⟩ := Parser.keeps_specification _ _ _ _ _ hwords hr
  obtain ⟨body, hb, hread⟩ := Except.bind_eq_ok_iff.mp hread
  obtain ⟨projections, hp, hread⟩ := Except.bind_eq_ok_iff.mp hread
  cases hread
  have hall : tree.given.all Label.isPrintable = true :=
    List.all_eq_true.mpr fun label hl => Bool.and_eq_true_iff.mpr (hlabels label hl)
  simp only [isPrintable, hall, hbody text body hb, hprojections text projections hp,
    Bool.and_true, Bool.not_eq_true', List.isEmpty_eq_false_iff]
  exact hgiven

end FactGraph

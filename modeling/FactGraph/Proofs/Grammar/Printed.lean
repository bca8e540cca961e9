import FactGraph.Proofs.Grammar.Tokens

/-! # The tokens of printed specifications

A specification is printable if its names are words of the language. Its text then consists of the
tokens that its parts are made of, in their order; blanks and line feeds leave no trace.

* `Match.read_renderAll`, `Projection.read_renderAll`: the tokens of the lines of a block.
* `Specification.read_render`: the tokens of the text of a specification. -/

namespace FactGraph

open Token (read EndsWord)

/-! ### Printable parts -/

/-- The name and the type of a label are words. -/
def Label.isPrintable (label : Label) : Bool := Token.isWord label.name && Token.isWord label.type

/-- The name and the target of a role are words. -/
def Role.isPrintable (role : Role) : Bool := Token.isWord role.name && Token.isWord role.target

/-- The names in a path condition are words. -/
def PathCondition.isPrintable (path : PathCondition) : Bool :=
  path.rolesLeft.all Role.isPrintable && Token.isWord path.labelRight &&
    path.rolesRight.all Role.isPrintable

mutual

/-- The names in a condition are words. -/
def Condition.isPrintable : Condition → Bool
  | .path path => path.isPrintable
  | .existential _ block => Match.allPrintable block

/-- The names in some matches are words. -/
def Match.allPrintable : List Match → Bool
  | [] => true
  | ⟨unknown, conditions⟩ :: rest =>
    unknown.isPrintable && Condition.allPrintable conditions && Match.allPrintable rest

/-- The names in some conditions are words. -/
def Condition.allPrintable : List Condition → Bool
  | [] => true
  | condition :: rest => condition.isPrintable && Condition.allPrintable rest

end

/-- A label without a dot. -/
def isPlainWord (label : String) : Bool := Token.isWord label && label.toList.all (· != '.')

/-- The name of a scalar projection, which may be empty where the projection stands `alone`. -/
def isScalarName (alone : Bool) (name : String) : Bool :=
  Token.isWord name || alone && name.isEmpty

mutual

/-- The names in a projection are words; the label in front of a field has no dot, and the field any
characters of a word. -/
def Projection.isPrintable (alone : Bool) : Projection → Bool
  | .field name label path =>
    isScalarName alone name && isPlainWord label && path.toList.all Token.isWordChar
  | .hash name label => isScalarName alone name && Token.isWord label
  | .fact name label => isScalarName alone name && isPlainWord label
  | .nested name block projections =>
    Token.isWord name && Match.allPrintable block &&
      Projection.allPrintable (projections.length == 1) projections

/-- The names in some projections are words. -/
def Projection.allPrintable (alone : Bool) : List Projection → Bool
  | [] => true
  | projection :: rest => projection.isPrintable alone && Projection.allPrintable alone rest

end

/-- There is a given label, and all names are words. Only a scalar projection that stands alone may
have the empty name. -/
def Specification.isPrintable (spec : Specification) : Bool :=
  !spec.given.isEmpty && spec.given.all Label.isPrintable && Match.allPrintable spec.body &&
    Projection.allPrintable (spec.projections.length == 1) spec.projections

/-! ### Tokens of parts -/

def Label.tokens (label : Label) : List Token := [.word label.name, .char ':', .word label.type]

def Role.tokens (role : Role) : List Token :=
  [.arrow, .word role.name, .char ':', .word role.target]

/-- The tokens of a path condition on an unknown. -/
def PathCondition.tokens (unknown : String) (path : PathCondition) : List Token :=
  .word unknown :: (path.rolesLeft.flatMap Role.tokens ++
    .char '=' :: .word path.labelRight :: path.rolesRight.flatMap Role.tokens)

mutual

/-- The tokens of a condition on an unknown. -/
def Condition.tokens (unknown : String) : Condition → List Token
  | .path path => path.tokens unknown
  | .existential holds block =>
    (if holds then [] else [.char '!']) ++
      .word "E" :: .char '\x7b' :: (Match.tokensAll block ++ [.char '\x7d'])

/-- The tokens of matches. -/
def Match.tokensAll : List Match → List Token
  | [] => []
  | ⟨unknown, conditions⟩ :: rest =>
    unknown.tokens ++ .char '[' :: (Condition.tokensAll unknown.name conditions ++
      .char ']' :: Match.tokensAll rest)

/-- The tokens of conditions on an unknown. -/
def Condition.tokensAll (unknown : String) : List Condition → List Token
  | [] => []
  | condition :: rest => condition.tokens unknown ++ Condition.tokensAll unknown rest

end

/-- The tokens of a block of matches. -/
def Match.blockTokens (block : List Match) : List Token :=
  .char '\x7b' :: (Match.tokensAll block ++ [.char '\x7d'])

/-- The tokens of what a scalar projection reports. -/
def Projection.scalarTokens : Projection → List Token
  | .field _ label path => [.word (label ++ "." ++ path)]
  | .hash _ label => [.char '#', .word label]
  | .fact _ label => [.word label]
  | .nested _ _ _ => []

/-- The arrow and the tokens behind it, from those of the projections in a block. -/
def yieldTokens (projections : List Projection) (lines : List Token) : List Token :=
  match projections with
  | [] => []
  | [single] =>
    if single.isBare then .yields :: single.scalarTokens
    else .yields :: .char '\x7b' :: (lines ++ [.char '\x7d'])
  | _ => .yields :: .char '\x7b' :: (lines ++ [.char '\x7d'])

mutual

/-- The tokens of a projection in a block. -/
def Projection.tokens : Projection → List Token
  | .nested name block projections =>
    .word name :: (Match.blockTokens block ++
      yieldTokens projections (Projection.tokensAll projections))
  | .field name label path => .word name :: .char '=' :: [.word (label ++ "." ++ path)]
  | .hash name label => .word name :: .char '=' :: [.char '#', .word label]
  | .fact name label => .word name :: .char '=' :: [.word label]

/-- The tokens of projections in a block. -/
def Projection.tokensAll : List Projection → List Token
  | [] => []
  | projection :: rest => projection.tokens ++ Projection.tokensAll rest

end

/-- The tokens of given labels behind the first one. -/
def Label.moreTokens (others : List Label) : List Token :=
  others.flatMap fun label => .char ',' :: label.tokens

/-- The tokens of a specification. -/
def Specification.tokens (spec : Specification) : List Token :=
  match spec.given with
  | [] => []
  | first :: others =>
    .char '(' :: (first.tokens ++ (Label.moreTokens others ++ .char ')' ::
      (Match.blockTokens spec.body ++
        yieldTokens spec.projections (Projection.tokensAll spec.projections))))

/-! ### Labels and paths -/

variable {rest : List Char}

theorem Label.read_render {label : Label} (h : label.isPrintable = true) (hr : EndsWord rest) :
    read (label.render.toList ++ rest) = label.tokens ++ read rest := by
  obtain ⟨hn, ht⟩ := Bool.and_eq_true_iff.mp h
  have htext : label.render.toList ++ rest =
      label.name.toList ++ ':' :: ' ' :: (label.type.toList ++ rest) := by simp [Label.render]
  rw [htext, Token.read_word hn (by simp; decide), Token.read_sign (by decide),
    Token.read_blank (by decide), Token.read_word ht hr]
  rfl

theorem Role.read_render {role : Role} (h : role.isPrintable = true) (hr : EndsWord rest) :
    read (role.render.toList ++ rest) = role.tokens ++ read rest := by
  obtain ⟨hn, ht⟩ := Bool.and_eq_true_iff.mp h
  have htext : role.render.toList ++ rest = '-' :: '>' ::
      (role.name.toList ++ ':' :: ' ' :: (role.target.toList ++ rest)) := by simp [Role.render]
  rw [htext, Token.read_arrow, Token.read_word hn (by simp; decide), Token.read_sign (by decide),
    Token.read_blank (by decide), Token.read_word ht hr]
  rfl

theorem renderRoles_cons {role : Role} {roles : List Role} :
    (renderRoles (role :: roles)).toList = role.render.toList ++ (renderRoles roles).toList := by
  simp [renderRoles]

theorem endsWord_renderRoles (roles : List Role) (hr : EndsWord rest) :
    EndsWord ((renderRoles roles).toList ++ rest) := by
  cases roles with
  | nil => simpa [renderRoles] using hr
  | cons role roles =>
    simp [renderRoles_cons, Role.render]
    decide

theorem read_renderRoles : ∀ {roles : List Role}, roles.all Role.isPrintable = true →
    EndsWord rest →
    read ((renderRoles roles).toList ++ rest) = roles.flatMap Role.tokens ++ read rest
  | [], _, _ => by simp [renderRoles]
  | role :: roles, h, hr => by
    obtain ⟨hrole, h⟩ := Bool.and_eq_true_iff.mp (List.all_cons.symm.trans h)
    rw [renderRoles_cons, List.append_assoc, Role.read_render hrole (endsWord_renderRoles roles hr),
      read_renderRoles h hr, List.flatMap_cons, List.append_assoc]

theorem PathCondition.read_render {unknown : String} {path : PathCondition}
    (hu : Token.isWord unknown = true) (h : path.isPrintable = true) (hr : EndsWord rest) :
    read ((path.render unknown).toList ++ rest) = path.tokens unknown ++ read rest := by
  simp only [isPrintable, Bool.and_eq_true] at h
  obtain ⟨⟨hleft, hlabel⟩, hright⟩ := h
  have htext : (path.render unknown).toList ++ rest = unknown.toList ++
      ((renderRoles path.rolesLeft).toList ++ ' ' :: '=' :: ' ' ::
        (path.labelRight.toList ++ ((renderRoles path.rolesRight).toList ++ rest))) := by
    simp [render]
  rw [htext, Token.read_word hu (endsWord_renderRoles _ (by simp; decide)),
    read_renderRoles hleft (by simp; decide), Token.read_blank (by decide),
    Token.read_equals (by decide), Token.read_blank (by decide),
    Token.read_word hlabel (endsWord_renderRoles _ hr), read_renderRoles hright hr]
  simp [tokens]

/-! ### Matches -/

mutual

theorem Condition.read_render : ∀ {condition : Condition} {depth : Nat} {unknown : String}
    {rest : List Char}, Token.isWord unknown = true → condition.isPrintable = true →
    EndsWord rest →
    read ((condition.render depth unknown).toList ++ rest) = condition.tokens unknown ++ read rest
  | .path path, _, _, _, hu, h, hr => PathCondition.read_render hu h hr
  | .existential holds block, depth, unknown, rest, _, h, _ => by
    have hE : Token.isWord "E" = true := by decide
    have hword := fun tail => @Token.read_word (' ' :: tail) "E" hE (by simp; decide)
    have htext : ((Condition.existential holds block).render depth unknown).toList ++ rest =
        (if holds then [] else ['!']) ++ ("E".toList ++ ' ' :: '\x7b' :: '\n' ::
          ((Match.renderAll (depth + 1) block).toList ++
            ((indentation depth).toList ++ '\x7d' :: rest))) := by
      cases holds <;> simp [Condition.render]
    have hbody : read ("E".toList ++ ' ' :: '\x7b' :: '\n' ::
        ((Match.renderAll (depth + 1) block).toList ++
          ((indentation depth).toList ++ '\x7d' :: rest))) =
        .word "E" :: .char '\x7b' :: (Match.tokensAll block ++ .char '\x7d' :: read rest) := by
      rw [hword, Token.read_blank (by decide), Token.read_sign (by decide),
        Token.read_blank (by decide), Match.read_renderAll h, Token.read_indentation,
        Token.read_sign (by decide)]
    rw [htext, Condition.tokens]
    cases holds with
    | true => simpa using hbody
    | false =>
      simp only [Bool.false_eq_true, if_false, List.singleton_append]
      rw [Token.read_sign (by decide), hbody]
      simp

/-- **The tokens of the lines of matches.** -/
theorem Match.read_renderAll : ∀ {block : List Match} {depth : Nat} {rest : List Char},
    Match.allPrintable block = true →
    read ((Match.renderAll depth block).toList ++ rest) = Match.tokensAll block ++ read rest
  | [], _, _, _ => by simp [Match.renderAll, Match.tokensAll]
  | ⟨unknown, conditions⟩ :: others, depth, rest, h => by
    simp only [Match.allPrintable, Bool.and_eq_true] at h
    obtain ⟨⟨hu, hc⟩, ho⟩ := h
    have htext : (Match.renderAll depth (⟨unknown, conditions⟩ :: others)).toList ++ rest =
        (indentation depth).toList ++ (unknown.render.toList ++ ' ' :: '[' :: '\n' ::
          ((Condition.renderAll (depth + 1) unknown.name conditions).toList ++
            ((indentation depth).toList ++ ']' :: '\n' ::
              ((Match.renderAll depth others).toList ++ rest)))) := by
      simp [Match.renderAll, Match.render]
    rw [htext, Token.read_indentation, Label.read_render hu (by simp; decide),
      Token.read_blank (by decide), Token.read_sign (by decide), Token.read_blank (by decide),
      Condition.read_renderAll (Bool.and_eq_true_iff.mp hu).1 hc, Token.read_indentation,
      Token.read_sign (by decide), Token.read_blank (by decide), Match.read_renderAll ho]
    simp [Match.tokensAll]

theorem Condition.read_renderAll : ∀ {conditions : List Condition} {depth : Nat}
    {unknown : String} {rest : List Char}, Token.isWord unknown = true →
    Condition.allPrintable conditions = true →
    read ((Condition.renderAll depth unknown conditions).toList ++ rest) =
      Condition.tokensAll unknown conditions ++ read rest
  | [], _, _, _, _, _ => by simp [Condition.renderAll, Condition.tokensAll]
  | condition :: others, depth, unknown, rest, hu, h => by
    simp only [Condition.allPrintable, Bool.and_eq_true] at h
    obtain ⟨hc, ho⟩ := h
    have htext : (Condition.renderAll depth unknown (condition :: others)).toList ++ rest =
        (indentation depth).toList ++ ((condition.render depth unknown).toList ++ '\n' ::
          ((Condition.renderAll depth unknown others).toList ++ rest)) := by
      simp [Condition.renderAll]
    rw [htext, Token.read_indentation, Condition.read_render hu hc (by simp; decide),
      Token.read_blank (by decide), Condition.read_renderAll hu ho]
    simp [Condition.tokensAll]

end

theorem read_renderBlock {depth : Nat} {block : List Match}
    (h : Match.allPrintable block = true) :
    read ((renderBlock depth block).toList ++ rest) = Match.blockTokens block ++ read rest := by
  have htext : (renderBlock depth block).toList ++ rest = '\x7b' :: '\n' ::
      ((Match.renderAll (depth + 1) block).toList ++
        ((indentation depth).toList ++ '\x7d' :: rest)) := by
    simp [renderBlock]
  rw [htext, Token.read_sign (by decide), Token.read_blank (by decide), Match.read_renderAll h,
    Token.read_indentation, Token.read_sign (by decide)]
  simp [Match.blockTokens]

/-! ### Projections -/

theorem isWord_of_isPlainWord {label : String} (h : isPlainWord label = true) :
    Token.isWord label = true :=
  (Bool.and_eq_true_iff.mp h).1

theorem isWord_field {label path : String} (h : Token.isWord label = true)
    (hf : path.toList.all Token.isWordChar = true) :
    Token.isWord (label ++ "." ++ path) = true := by
  unfold Token.isWord at h ⊢
  rcases hl : label.toList with _ | ⟨c, cs⟩
  · simp [hl] at h
  · simp only [hl, Bool.and_eq_true] at h
    simp only [String.toList_append, hl, List.cons_append, List.all_append, Bool.and_eq_true]
    exact ⟨h.1, ⟨h.2, by decide⟩, hf⟩

theorem Projection.read_renderScalar {alone : Bool} {projection : Projection}
    (h : projection.isPrintable alone = true) (hr : EndsWord rest) :
    read (projection.renderScalar.toList ++ rest) = projection.scalarTokens ++ read rest := by
  cases projection with
  | field name label path =>
    simp only [isPrintable, Bool.and_eq_true] at h
    obtain ⟨⟨-, hl⟩, hf⟩ := h
    exact Token.read_word (isWord_field (isWord_of_isPlainWord hl) hf) hr
  | hash name label =>
    simp only [isPrintable, Bool.and_eq_true] at h
    have htext : (renderScalar (.hash name label)).toList ++ rest =
        '#' :: (label.toList ++ rest) := by simp [renderScalar]
    rw [htext, Token.read_sign (by decide), Token.read_word h.2 hr]
    rfl
  | fact name label =>
    simp only [isPrintable, Bool.and_eq_true] at h
    exact Token.read_word (isWord_of_isPlainWord h.2) hr
  | nested name block projections => simp [renderScalar, scalarTokens]

theorem Projection.isPrintable_of_not_isBare {projection : Projection}
    (h : projection.isPrintable true = true) (hb : projection.isBare = false) :
    projection.isPrintable false = true := by
  have hname : ∀ name : String, isScalarName true name = true → name.isEmpty = false →
      isScalarName false name = true := by
    intro name hn he
    simpa [isScalarName, he] using hn
  cases projection with
  | nested name block projections => exact h
  | field name label path =>
    simp only [isPrintable, Bool.and_eq_true] at h ⊢
    exact ⟨⟨hname name h.1.1 hb, h.1.2⟩, h.2⟩
  | hash name label =>
    simp only [isPrintable, Bool.and_eq_true] at h ⊢
    exact ⟨hname name h.1 hb, h.2⟩
  | fact name label =>
    simp only [isPrintable, Bool.and_eq_true] at h ⊢
    exact ⟨hname name h.1 hb, h.2⟩

/-- The tokens of the arrow and what stands behind it, from those of the lines of a block. -/
theorem read_renderYield {depth : Nat} {projections : List Projection} {lines : String}
    {tokens : List Token}
    (h : Projection.allPrintable (projections.length == 1) projections = true)
    (hl : Projection.allPrintable false projections = true → ∀ rest,
      read (lines.toList ++ rest) = tokens ++ read rest) (hr : EndsWord rest) :
    read ((renderYield depth projections lines).toList ++ rest) =
      yieldTokens projections tokens ++ read rest := by
  have hblock : Projection.allPrintable false projections = true →
      read ((" => \x7b\n" ++ lines ++ indentation depth ++ "\x7d").toList ++ rest) =
        .yields :: .char '\x7b' :: (tokens ++ [.char '\x7d']) ++ read rest := by
    intro h
    have htext : (" => \x7b\n" ++ lines ++ indentation depth ++ "\x7d").toList ++ rest =
        ' ' :: '=' :: '>' :: ' ' :: '\x7b' :: '\n' ::
          (lines.toList ++ ((indentation depth).toList ++ '\x7d' :: rest)) := by simp
    rw [htext, Token.read_blank (by decide), Token.read_yields, Token.read_blank (by decide),
      Token.read_sign (by decide), Token.read_blank (by decide), hl h, Token.read_indentation,
      Token.read_sign (by decide)]
    simp
  rcases projections with _ | ⟨single, _ | ⟨second, others⟩⟩
  · simp [renderYield, yieldTokens]
  · rw [renderYield, yieldTokens]
    have hsingle : single.isPrintable true = true := by simpa [Projection.allPrintable] using h
    by_cases hb : single.isBare = true
    · have htext : (" => " ++ single.renderScalar).toList ++ rest =
          ' ' :: '=' :: '>' :: ' ' :: (single.renderScalar.toList ++ rest) := by simp
      rw [if_pos hb, if_pos hb, htext, Token.read_blank (by decide), Token.read_yields,
        Token.read_blank (by decide), Projection.read_renderScalar hsingle hr]
      rfl
    · rw [if_neg hb, if_neg hb]
      refine hblock ?_
      simpa [Projection.allPrintable] using
        Projection.isPrintable_of_not_isBare hsingle (by simpa using hb)
  · exact hblock h

theorem Projection.read_named {projection : Projection} {depth : Nat}
    (htext : (projection.render depth).toList =
      projection.name.toList ++ ' ' :: '=' :: ' ' :: projection.renderScalar.toList)
    (hn : isScalarName false projection.name = true)
    (h : projection.isPrintable false = true) (hr : EndsWord rest) :
    read ((projection.render depth).toList ++ rest) =
      .word projection.name :: .char '=' :: (projection.scalarTokens ++ read rest) := by
  have hword : Token.isWord projection.name = true := by simpa [isScalarName] using hn
  rw [htext, List.append_assoc, List.cons_append, List.cons_append, List.cons_append,
    Token.read_word hword (by simp; decide), Token.read_blank (by decide),
    Token.read_equals (by decide), Token.read_blank (by decide),
    Projection.read_renderScalar h hr]

mutual

theorem Projection.read_render : ∀ {projection : Projection} {depth : Nat} {rest : List Char},
    projection.isPrintable false = true → EndsWord rest →
    read ((projection.render depth).toList ++ rest) = projection.tokens ++ read rest
  | .field name label path, depth, rest, h, hr => by
    have hfirst := (Bool.and_eq_true_iff.mp h).1
    exact Projection.read_named
      (by simp [Projection.render, Projection.renderScalar, Projection.name])
      (Bool.and_eq_true_iff.mp hfirst).1 h hr
  | .hash name label, depth, rest, h, hr =>
    Projection.read_named (by simp [Projection.render, Projection.renderScalar, Projection.name])
      (Bool.and_eq_true_iff.mp h).1 h hr
  | .fact name label, depth, rest, h, hr =>
    Projection.read_named (by simp [Projection.render, Projection.renderScalar, Projection.name])
      (Bool.and_eq_true_iff.mp h).1 h hr
  | .nested name block projections, depth, rest, h, hr => by
    simp only [Projection.isPrintable, Bool.and_eq_true] at h
    obtain ⟨⟨hn, hb⟩, hp⟩ := h
    have htext : ((Projection.nested name block projections).render depth).toList ++ rest =
        name.toList ++ ' ' :: ((renderBlock depth block).toList ++
          ((renderYield depth projections (Projection.renderAll (depth + 1) projections)).toList ++
            rest)) := by
      simp [Projection.render]
    have hyield := @read_renderYield rest depth projections
      (Projection.renderAll (depth + 1) projections) _ hp
      (fun h _ => Projection.read_renderAll h) hr
    rw [htext, Token.read_word hn (by simp; decide), Token.read_blank (by decide),
      read_renderBlock hb, hyield, Projection.tokens]
    simp

/-- **The tokens of the lines of projections.** -/
theorem Projection.read_renderAll : ∀ {projections : List Projection} {depth : Nat}
    {rest : List Char}, Projection.allPrintable false projections = true →
    read ((Projection.renderAll depth projections).toList ++ rest) =
      Projection.tokensAll projections ++ read rest
  | [], _, _, _ => by simp [Projection.renderAll, Projection.tokensAll]
  | projection :: others, depth, rest, h => by
    simp only [Projection.allPrintable, Bool.and_eq_true] at h
    have htext : (Projection.renderAll depth (projection :: others)).toList ++ rest =
        (indentation depth).toList ++ ((projection.render depth).toList ++ '\n' ::
          ((Projection.renderAll depth others).toList ++ rest)) := by
      simp [Projection.renderAll]
    rw [htext, Token.read_indentation, Projection.read_render h.1 (by simp; decide),
      Token.read_blank (by decide), Projection.read_renderAll h.2]
    simp [Projection.tokensAll]

end

/-! ### Specifications -/

/-- The text of given labels behind the first one. -/
def Label.more (others : List Label) : List Char :=
  others.flatMap fun label => ',' :: ' ' :: label.render.toList

theorem Label.more_cons {label : Label} {others : List Label} : Label.more (label :: others) =
    ',' :: ' ' :: (label.render.toList ++ Label.more others) := by
  simp [Label.more]

theorem toList_intercalate_render : ∀ {first : Label} {others : List Label},
    (", ".intercalate ((first :: others).map Label.render)).toList =
      first.render.toList ++ Label.more others
  | _, [] => by simp [Label.more]
  | first, second :: others => by
    have ih := @toList_intercalate_render second others
    simp only [String.toList_intercalate, List.intercalate, List.map_cons, List.map_map] at ih ⊢
    rw [List.intersperse_cons_cons, List.flatten_cons, List.flatten_cons, ih, Label.more_cons]
    simp

theorem endsWord_more (others : List Label) (hr : EndsWord rest) :
    EndsWord (Label.more others ++ rest) := by
  cases others with
  | nil => simpa [Label.more] using hr
  | cons label others =>
    simp [Label.more_cons]
    decide

theorem Label.read_more : ∀ {others : List Label}, others.all Label.isPrintable = true →
    EndsWord rest →
    read (Label.more others ++ rest) = Label.moreTokens others ++ read rest
  | [], _, _ => by simp [Label.more, Label.moreTokens]
  | label :: others, h, hr => by
    obtain ⟨hl, ho⟩ := Bool.and_eq_true_iff.mp (List.all_cons.symm.trans h)
    have htext : Label.more (label :: others) ++ rest =
        ',' :: ' ' :: (label.render.toList ++ (Label.more others ++ rest)) := by
      simp [Label.more_cons]
    rw [htext, Token.read_sign (by decide), Token.read_blank (by decide),
      Label.read_render hl (endsWord_more others hr), Label.read_more ho hr]
    simp [Label.moreTokens]

/-- **The tokens of the text of a specification.** -/
theorem Specification.read_render {spec : Specification} (h : spec.isPrintable = true) :
    read spec.render.toList = spec.tokens := by
  obtain ⟨given, body, projections⟩ := spec
  simp only [isPrintable, Bool.and_eq_true] at h
  obtain ⟨⟨⟨hne, hgiven⟩, hbody⟩, hprojections⟩ := h
  rcases given with _ | ⟨first, others⟩
  · cases hne
  obtain ⟨hfirst, hothers⟩ := Bool.and_eq_true_iff.mp (List.all_cons.symm.trans hgiven)
  have htext : (render ⟨first :: others, body, projections⟩).toList =
      '(' :: (first.render.toList ++ (Label.more others ++ ')' :: ' ' ::
        ((renderBlock 0 body).toList ++
          ((renderYield 0 projections (Projection.renderAll 1 projections)).toList ++ [])))) := by
    simp only [render, String.toList_append, toList_intercalate_render]
    simp
  have hyield := @read_renderYield [] 0 projections (Projection.renderAll 1 projections) _
    hprojections (fun h _ => Projection.read_renderAll h) Token.endsWord_nil
  rw [htext, Token.read_sign (by decide),
    Label.read_render hfirst (endsWord_more others (by simp; decide)),
    Label.read_more hothers (by simp; decide), Token.read_sign (by decide),
    Token.read_blank (by decide), read_renderBlock hbody, hyield]
  simp [tokens]

end FactGraph

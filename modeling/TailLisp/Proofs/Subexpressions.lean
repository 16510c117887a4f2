import TailLisp.Proofs.TailSlots

namespace TailLisp

/-!
Expressions inside expressions.

The rules of the grammar put items together from items.  Those rules that have
code among their parts are listed here once more, without recursion, so that an
expression can be followed into its parts, their parts and so on.  Quoted data
are not code, whatever words they begin with, and no rule for them is listed.

Whatever is found in this way has its tokens together in the text, and the tree
that it stands for is a node of the whole tree, in the slot that the rules give
to it.
-/

namespace Node

variable {Symbol : Type}

/-! ## Nodes inside nodes -/

theorem Stands.trans {tail middleTail innerTail : Bool} {root middle inner : Node Symbol}
    (outside : Stands tail root middleTail middle)
    (inside : Stands middleTail middle innerTail inner) : Stands tail root innerTail inner := by
  induction outside with
  | root => exact inside
  | within member _ inductionHypothesis => exact .within member (inductionHypothesis inside)

theorem mem_of_bodySlots {tail slot : Bool} {body : List (Node Symbol)} {part : Node Symbol}
    (member : (slot, part) ∈ bodySlots tail body) : part ∈ body := by
  rcases List.eq_nil_or_concat' body with nothing | ⟨init, last, same⟩
  · rw [nothing] at member
    cases member
  · rw [same, bodySlots_concat] at member
    rw [same]
    rcases List.mem_append.1 member with member | member
    · rcases List.mem_map.1 member with ⟨item, inInit, same⟩
      cases same
      exact List.mem_append_left _ inInit
    · cases List.mem_singleton.1 member
      exact List.mem_append_right _ (List.mem_singleton.2 rfl)

/-- The symbols of a part are symbols of the whole. -/
theorem symbols_subset_of_parts {tail slot : Bool} {root part : Node Symbol}
    (member : (slot, part) ∈ root.parts tail) : part.symbols ⊆ root.symbols := by
  have row {items : List (Node Symbol)} (inside : part ∈ items) :
      part.symbols ⊆ symbolsOfSeries items := by
    intro name occurs
    rw [symbolsOfSeries_eq]
    exact List.mem_flatMap.2 ⟨part, inside, occurs⟩
  intro name occurs
  cases root with
  | pair mark car cdr =>
      rw [symbols, List.mem_append]
      rcases List.mem_cons.1 member with same | member
      · cases same
        exact .inl occurs
      · cases List.mem_singleton.1 member
        exact .inr occurs
  | list mark first others =>
      rcases List.mem_map.1 member with ⟨item, inItems, same⟩
      cases same
      exact row inItems occurs
  | quote mark datum =>
      cases List.mem_singleton.1 member
      exact occurs
  | begin mark body => exact row (mem_of_bodySlots member) occurs
  | define mark label value =>
      cases List.mem_singleton.1 member
      exact List.mem_cons_of_mem _ occurs
  | conditional mark test consequent alternative =>
      simp only [parts, List.mem_cons, List.not_mem_nil, or_false, Prod.mk.injEq] at member
      rw [symbols, List.mem_append, List.mem_append]
      rcases member with ⟨_, same⟩ | ⟨_, same⟩ | ⟨_, same⟩
      · exact .inl (.inl (same ▸ occurs))
      · exact .inl (.inr (same ▸ occurs))
      · exact .inr (same ▸ occurs)
  | scope mark kind bindings body =>
      rw [symbols, List.mem_append]
      rcases List.mem_append.1 member with member | member
      · rcases List.mem_map.1 member with ⟨binding, bound, same⟩
        cases same
        rw [symbolsOfBindings_eq]
        exact .inl (List.mem_flatMap.2 ⟨binding, bound, List.mem_append_left _ occurs⟩)
      · exact .inr (row (mem_of_bodySlots member) occurs)
  | lambda mark label params body =>
      exact List.mem_append_right _ (row (mem_of_bodySlots member) occurs)
  | recur mark args =>
      rcases List.mem_map.1 member with ⟨item, inItems, same⟩
      cases same
      exact row inItems occurs
  | _ => cases member

theorem Stands.symbols_subset {tail inTail : Bool} {root node : Node Symbol}
    (stands : Stands tail root inTail node) : node.symbols ⊆ root.symbols := by
  induction stands with
  | root => exact fun _ occurs => occurs
  | within member _ inductionHypothesis =>
      exact fun _ occurs => symbols_subset_of_parts member (inductionHypothesis occurs)

/-- The elements of a chain of pairs stand in it, and so does its end. -/
theorem stands_chain {items : List (Node Symbol)} {ending : Node Symbol} :
    (forall item, item ∈ items -> Stands false (chain ending items) false item) ∧
      Stands false (chain ending items) false ending := by
  induction items with
  | nil => exact ⟨nofun, .root⟩
  | cons item items inductionHypothesis =>
      have later {node : Node Symbol} (inside : Stands false (chain ending items) false node) :
          Stands false (chain ending (item :: items)) false node :=
        .within (.tail _ (.head _)) inside
      refine ⟨List.forall_mem_cons.2 ⟨.within (.head _) .root, ?_⟩, later inductionHypothesis.2⟩
      intro other member
      exact later (inductionHypothesis.1 other member)

end Node

namespace Grammar

open Node

/-! ## Parts of an expression -/

/-- A passage of code, in a tail slot or outside. -/
structure Expression extends Passage where
  tail : Bool

def Expression.IsItem (expression : Expression) : Prop :=
  Item (.code expression.tail) expression.tokens expression.tree

/-- A passage as an expression in a slot. -/
def Passage.inCode (tail : Bool) (passage : Passage) : Expression :=
  { passage with tail }

/-- The first expression is put together from the others by a rule of the
grammar. -/
inductive Consists : Expression -> List Expression -> Prop
  | list {tail pos ending} {first : Passage} {others : List Passage} :
      Consists
        { tokens := ⟨pos, .opening⟩ ::
            ((first :: others).flatMap Passage.tokens ++ [⟨ending, .closing⟩])
          tree := .list { pos, tail } first.tree (others.map Passage.tree)
          tail }
        ((first :: others).map (Passage.inCode false))
  | dotted {tail pos dot ending} {first last : Passage} {others : List Passage} :
      Consists
        { tokens := ⟨pos, .opening⟩ :: ((first :: others).flatMap Passage.tokens ++
            ⟨dot, .dot⟩ :: (last.tokens ++ [⟨ending, .closing⟩]))
          tree := .pair (.plain pos) first.tree (Node.chain last.tree (others.map Passage.tree))
          tail }
        ((first :: others ++ [last]).map (Passage.inCode false))
  | begin {tail pos word ending} {init : List Passage} {last : Passage} :
      Consists
        { tokens := ⟨pos, .opening⟩ :: ⟨word, .word (.head .begin)⟩ ::
            (init.flatMap Passage.tokens ++ (last.tokens ++ [⟨ending, .closing⟩]))
          tree := .begin { pos, tail } (init.map Passage.tree ++ [last.tree])
          tail }
        (init.map (Passage.inCode false) ++ [last.inCode tail])
  | define {tail pos word name ending} {label : Token} {value : Passage} :
      Consists
        { tokens := ⟨pos, .opening⟩ :: ⟨word, .word (.head .define)⟩ :: label ::
            (value.tokens ++ [⟨ending, .closing⟩])
          tree := .define (.plain pos) (.named name) value.tree
          tail }
        [value.inCode false]
  | conditional {tail pos word ending} {test consequent alternative : Passage} :
      Consists
        { tokens := ⟨pos, .opening⟩ :: ⟨word, .word (.head .conditional)⟩ ::
            (test.tokens ++ (consequent.tokens ++ (alternative.tokens ++ [⟨ending, .closing⟩])))
          tree := .conditional { pos, tail } test.tree consequent.tree alternative.tree
          tail }
        [test.inCode false, consequent.inCode tail, alternative.inCode tail]
  | scope {tail pos word kind opening closing ending} {bindings : List BindingPart}
      {init : List Passage} {last : Passage} :
      Consists
        { tokens := ⟨pos, .opening⟩ :: ⟨word, .word (.head (.scope kind))⟩ ::
            ⟨opening, .opening⟩ :: (bindings.flatMap BindingPart.tokens ++ ⟨closing, .closing⟩ ::
              (init.flatMap Passage.tokens ++ (last.tokens ++ [⟨ending, .closing⟩])))
          tree := .scope { pos, tail } (if last.tree.reachesRecur then kind else .once)
            (bindings.map BindingPart.pair) (init.map Passage.tree ++ [last.tree])
          tail }
        (bindings.map (fun binding => binding.value.inCode false) ++
          (init.map (Passage.inCode false) ++ [last.inCode true]))
  | lambda {tail pos word label name opening closing ending} {params : List Param}
      {init : List Passage} {last : Passage} :
      Consists
        { tokens := ⟨pos, .opening⟩ :: ⟨word, .word (.head .lambda)⟩ ::
            (label ++ ⟨opening, .opening⟩ :: (params.map Param.token ++ ⟨closing, .closing⟩ ::
              (init.flatMap Passage.tokens ++ (last.tokens ++ [⟨ending, .closing⟩]))))
          tree := .lambda (.plain pos) name (params.map fun param => .named param.name)
            (init.map Passage.tree ++ [last.tree])
          tail }
        (init.map (Passage.inCode false) ++ [last.inCode true])
  | recur {pos word ending} {args : List Passage} :
      Consists
        { tokens := ⟨pos, .opening⟩ :: ⟨word, .word (.head .recur)⟩ ::
            (args.flatMap Passage.tokens ++ [⟨ending, .closing⟩])
          tree := .recur { pos, tail := true } (args.map Passage.tree)
          tail := true }
        (args.map (Passage.inCode false))

/-- An expression is found somewhere in another one, by following the rules. -/
inductive Occurs : Expression -> Expression -> Prop
  | self {expression} : Occurs expression expression
  | within {whole parts part inner} :
      Consists whole parts ->
      (forall part, part ∈ parts -> part.IsItem) ->
      part ∈ parts ->
      Occurs part inner ->
      Occurs whole inner

/-! ## Where the parts stand -/

theorem infix_of_mem_inCode {tail : Bool} {passages : List Passage} {part : Expression}
    (member : part ∈ passages.map (Passage.inCode tail)) :
    part.tokens <:+: passages.flatMap Passage.tokens := by
  rcases List.mem_map.1 member with ⟨passage, inside, same⟩
  rw [← same]
  exact infix_flatMap inside

/-- The expressions of a body have their tokens in a row. -/
theorem infix_of_mem_body {tail : Bool} {init : List Passage} {last : Passage}
    {part : Expression} (rest : List Token)
    (member : part ∈ init.map (Passage.inCode false) ++ [last.inCode tail]) :
    part.tokens <:+: init.flatMap Passage.tokens ++ (last.tokens ++ rest) := by
  rcases List.mem_append.1 member with inInit | isLast
  · exact (infix_of_mem_inCode inInit).trans (List.prefix_append _ _).isInfix
  · rw [List.mem_singleton.1 isLast]
    exact List.infix_append' _ _ _

/-- The expressions of a body have their trees in the slots of the body. -/
theorem mem_bodySlots_of_mem_body {tail : Bool} {init : List Passage} {last : Passage}
    {part : Expression} (member : part ∈ init.map (Passage.inCode false) ++ [last.inCode tail]) :
    (part.tail, part.tree) ∈ bodySlots tail (init.map Passage.tree ++ [last.tree]) := by
  rcases List.mem_append.1 member with inInit | isLast
  · rcases List.mem_map.1 inInit with ⟨passage, inside, same⟩
    rw [← same]
    exact mem_bodySlots_of_init (List.mem_map_of_mem inside)
  · rw [List.mem_singleton.1 isLast]
    exact last_mem_bodySlots

theorem mem_outside_of_mem_inCode {passages : List Passage} {part : Expression}
    (member : part ∈ passages.map (Passage.inCode false)) :
    (part.tail, part.tree) ∈ (passages.map Passage.tree).map (Prod.mk false) := by
  rcases List.mem_map.1 member with ⟨passage, inside, same⟩
  rw [← same]
  exact List.mem_map_of_mem (List.mem_map_of_mem inside)

namespace Consists

variable {whole part : Expression} {parts : List Expression}

/-- The tokens of a part stand together among those of the whole. -/
theorem tokens_infix (consists : Consists whole parts) (member : part ∈ parts) :
    part.tokens <:+: whole.tokens := by
  cases consists with
  | @list tail pos ending first others =>
      exact (infix_of_mem_inCode member).trans (List.infix_append' [_] _ _)
  | @dotted tail pos dot ending first last others =>
      rw [List.map_append] at member
      rcases List.mem_append.1 member with inOthers | isLast
      · exact (infix_of_mem_inCode inOthers).trans (List.infix_append' [_] _ _)
      · rw [List.map_singleton] at isLast
        rw [List.mem_singleton.1 isLast]
        refine List.infix_cons (List.IsInfix.trans ?_ (List.suffix_append _ _).isInfix)
        exact List.infix_append' [_] _ _
  | begin => exact List.infix_cons (List.infix_cons (infix_of_mem_body _ member))
  | @define tail pos word name ending label value =>
      rw [List.mem_singleton.1 member]
      exact List.infix_append' [_, _, _] _ _
  | @conditional tail pos word ending test consequent alternative =>
      refine List.infix_cons (List.infix_cons ?_)
      simp only [List.mem_cons, List.not_mem_nil, or_false] at member
      rcases member with same | same | same
      · rw [same]
        exact (List.prefix_append _ _).isInfix
      · rw [same]
        exact List.infix_append' _ _ _
      · rw [same, ← List.append_assoc]
        exact List.infix_append' _ _ _
  | @scope tail pos word kind opening closing ending bindings init last =>
      refine List.infix_cons (List.infix_cons (List.infix_cons ?_))
      rcases List.mem_append.1 member with bound | inBody
      · rcases List.mem_map.1 bound with ⟨binding, inBindings, same⟩
        have inBinding : part.tokens <:+: binding.tokens := by
          rw [← same]
          exact List.infix_append' [_, _] _ _
        exact inBinding.trans ((infix_flatMap inBindings).trans (List.prefix_append _ _).isInfix)
      · refine List.IsInfix.trans ?_ (List.suffix_append _ _).isInfix
        exact List.infix_cons (infix_of_mem_body _ inBody)
  | @lambda tail pos word label name opening closing ending params init last =>
      refine List.infix_cons (List.infix_cons ?_)
      refine List.IsInfix.trans ?_ (List.suffix_append label _).isInfix
      refine List.infix_cons (List.IsInfix.trans ?_ (List.suffix_append _ _).isInfix)
      exact List.infix_cons (infix_of_mem_body _ member)
  | recur =>
      refine (infix_of_mem_inCode member).trans ?_
      exact List.infix_append' [_, _] _ _

/-- The tree of a part stands in the tree of the whole, in the slot of the part. -/
theorem stands (consists : Consists whole parts) (member : part ∈ parts) :
    Stands whole.tail whole.tree part.tail part.tree := by
  cases consists with
  | list => exact .within (mem_outside_of_mem_inCode member) .root
  | @dotted tail pos dot ending first last others =>
      have inChain := @stands_chain _ (others.map Passage.tree) last.tree
      have ofCdr {node : Tree} (inside : Stands false (chain last.tree (others.map Passage.tree))
          false node) : Stands tail (.pair (.plain pos) first.tree
            (chain last.tree (others.map Passage.tree))) false node :=
        .within (.tail _ (.head _)) inside
      rw [List.cons_append, List.map_cons, List.map_append, List.mem_cons] at member
      rcases member with same | member
      · rw [same]
        exact .within (.head _) .root
      · rcases List.mem_append.1 member with inOthers | isLast
        · rcases List.mem_map.1 inOthers with ⟨passage, inside, same⟩
          rw [← same]
          exact ofCdr (inChain.1 _ (List.mem_map_of_mem inside))
        · rw [List.map_singleton] at isLast
          rw [List.mem_singleton.1 isLast]
          exact ofCdr inChain.2
  | begin => exact .within (mem_bodySlots_of_mem_body member) .root
  | define =>
      rw [List.mem_singleton.1 member]
      exact .within (.head _) .root
  | conditional =>
      simp only [List.mem_cons, List.not_mem_nil, or_false] at member
      rcases member with same | same | same
      · rw [same]
        exact .within (.head _) .root
      · rw [same]
        exact .within (.tail _ (.head _)) .root
      · rw [same]
        exact .within (.tail _ (.tail _ (.head _))) .root
  | scope =>
      rcases List.mem_append.1 member with bound | inBody
      · rcases List.mem_map.1 bound with ⟨binding, inBindings, same⟩
        rw [← same]
        refine .within (List.mem_append_left _ ?_) .root
        exact List.mem_map_of_mem (List.mem_map_of_mem inBindings)
      · exact .within (List.mem_append_right _ (mem_bodySlots_of_mem_body inBody)) .root
  | lambda => exact .within (mem_bodySlots_of_mem_body member) .root
  | recur => exact .within (mem_outside_of_mem_inCode member) .root

end Consists

namespace Occurs

variable {whole inner : Expression}

theorem isItem (occurs : Occurs whole inner) (item : whole.IsItem) : inner.IsItem := by
  induction occurs with
  | self => exact item
  | within _ items member _ inductionHypothesis => exact inductionHypothesis (items _ member)

theorem tokens_infix (occurs : Occurs whole inner) : inner.tokens <:+: whole.tokens := by
  induction occurs with
  | self => exact List.infix_rfl
  | within consists _ member _ inductionHypothesis =>
      exact inductionHypothesis.trans (consists.tokens_infix member)

theorem stands (occurs : Occurs whole inner) :
    Stands whole.tail whole.tree inner.tail inner.tree := by
  induction occurs with
  | self => exact .root
  | within consists _ member _ inductionHypothesis =>
      exact (consists.stands member).trans inductionHypothesis

end Occurs

end Grammar

end TailLisp

import TailLisp.Proofs.Trees
import TailLisp.Reader.Step

namespace TailLisp

/-!
The grammar of items.

An item is derived from a sequence of tokens by one rule for each of its
shapes, and the derivation says which tree the tokens stand for.  Tail slots
are handed down: a rule knows the slot of its item and assigns the slots of
the parts.  The last expression of a body is known as the last, so nothing is
ever taken back.

The reader cannot know which expression of a body is the last one.  It reads
each as if it were and demotes it when another one follows.  The two accounts
meet in `Item.demote` and `Item.promote`: an item outside a tail slot is the
demoted form of the same tokens read in a tail slot.
-/

namespace Token

/-- The tree of a token that is an expression by itself.  A string with a
malformed escape is none. -/
def atom? (token : Token) : Option Tree :=
  match token.lexeme with
  | .integer value => some (.integer (.plain token.pos) value)
  | .char value => some (.char (.plain token.pos) value)
  | .string raw => (Escape.decode raw).map (.string (.plain token.pos))
  | .word (.truth value) => some (.boolean (.plain token.pos) value)
  | .word (.head form) => some (.symbol (.plain token.pos) (.named form.name))
  | .symbol name => some (.symbol (.plain token.pos) (.named name))
  | .opening => none
  | .closing => none
  | .dot => none
  | .tick => none

end Token

namespace Slot

/-- Whether the tokens may follow the opening parenthesis of a plain list.  In
code they may not if they begin with the word of a special form. -/
def admits : Slot -> List Token -> Bool
  | code _, { lexeme := .word (.head _), .. } :: _ => false
  | _, _ => true

/-- What may begin a list in code does not depend on tail position. -/
theorem admits_code {tail other : Bool} {tokens : List Token} :
    (code tail).admits tokens = (code other).admits tokens := by
  rcases tokens with _ | ⟨⟨pos, lexeme⟩, rest⟩
  · rfl
  · cases lexeme with
    | word keyword => cases keyword <;> rfl
    | _ => rfl

/-- Only the first token matters. -/
theorem admits_append {slot : Slot} {first later : List Token} (nonempty : first ≠ []) :
    slot.admits (first ++ later) = slot.admits first := by
  rcases first with _ | ⟨⟨pos, lexeme⟩, rest⟩
  · exact (nonempty rfl).elim
  · cases slot with
    | data => rfl
    | code tail =>
        cases lexeme with
        | word keyword => cases keyword <;> rfl
        | _ => rfl

/-- The tree of a tick and its datum. -/
def quoted (pos : Position) (datum : Tree) : Slot -> Tree
  | data => .list (.plain pos) (.symbol (.plain pos) (.reserved .quote)) [datum]
  | code _ => .quote (.plain pos) datum

end Slot

/-- A tick is complete with its datum. -/
theorem Hole.fill_ticked (slot : Slot) (pos : Position) (datum : Tree) :
    (ticked (slot != .data) pos).fill datum = .complete (slot.quoted pos datum) := by
  cases slot <;> rfl

namespace Grammar

/-- Some tokens and the tree they stand for. -/
structure Passage where
  tokens : List Token
  tree : Tree

/-- A binding with the places of its parentheses and of its name. -/
structure BindingPart where
  opening : Position
  label : Position
  name : Bytes
  value : Passage
  closing : Position

namespace BindingPart

def tokens (binding : BindingPart) : List Token :=
  ⟨binding.opening, .opening⟩ :: ⟨binding.label, .symbol binding.name⟩ ::
    (binding.value.tokens ++ [⟨binding.closing, .closing⟩])

def pair (binding : BindingPart) : Reference × Tree :=
  (.named binding.name, binding.value.tree)

end BindingPart

/-- A parameter and its place. -/
structure Param where
  pos : Position
  name : Bytes

namespace Param

def token (param : Param) : Token :=
  ⟨param.pos, .symbol param.name⟩

end Param

/-- The tokens of the name that a lambda may have. -/
inductive Label : List Token -> Option Bytes -> Prop
  | absent : Label [] none
  | present {token name} : token.lexeme.name? = some name -> Label [token] (some name)

/-- The tokens are an item in the slot, and the tree is what they stand for. -/
inductive Item : Slot -> List Token -> Tree -> Prop
  | atom {slot token tree} :
      token.atom? = some tree ->
      Item slot [token] tree
  | ticked {slot pos tokens datum} :
      Item .data tokens datum ->
      Item slot (⟨pos, .tick⟩ :: tokens) (slot.quoted pos datum)
  | empty {slot pos ending} :
      Item slot [⟨pos, .opening⟩, ⟨ending, .closing⟩] (.empty (.plain pos))
  | list {slot pos ending} {first : Passage} {others : List Passage} :
      slot.admits first.tokens = true ->
      (forall part, part ∈ first :: others -> Item slot.element part.tokens part.tree) ->
      Item slot
        (⟨pos, .opening⟩ :: ((first :: others).flatMap Passage.tokens ++ [⟨ending, .closing⟩]))
        (.list { pos, tail := slot.isTail } first.tree (others.map Passage.tree))
  | dotted {slot pos dot tokens last ending} {first : Passage} {others : List Passage} :
      slot.admits first.tokens = true ->
      (forall part, part ∈ first :: others -> Item slot.element part.tokens part.tree) ->
      Item slot.element tokens last ->
      Item slot
        (⟨pos, .opening⟩ :: ((first :: others).flatMap Passage.tokens ++
          ⟨dot, .dot⟩ :: (tokens ++ [⟨ending, .closing⟩])))
        (.pair (.plain pos) first.tree (Node.chain last (others.map Passage.tree)))
  | quote {tail pos word tokens datum ending} :
      Item .data tokens datum ->
      Item (.code tail)
        (⟨pos, .opening⟩ :: ⟨word, .word (.head .quote)⟩ :: (tokens ++ [⟨ending, .closing⟩]))
        (.quote (.plain pos) datum)
  | emptyBegin {tail pos word ending} :
      Item (.code tail)
        [⟨pos, .opening⟩, ⟨word, .word (.head .begin)⟩, ⟨ending, .closing⟩]
        (.begin { pos, tail } [])
  | begin {tail pos word tokens last ending} {init : List Passage} :
      (forall part, part ∈ init -> Item (.code false) part.tokens part.tree) ->
      Item (.code tail) tokens last ->
      Item (.code tail)
        (⟨pos, .opening⟩ :: ⟨word, .word (.head .begin)⟩ ::
          (init.flatMap Passage.tokens ++ (tokens ++ [⟨ending, .closing⟩])))
        (.begin { pos, tail } (init.map Passage.tree ++ [last]))
  | define {tail pos word name tokens value ending} {label : Token} :
      label.lexeme.name? = some name ->
      Item (.code false) tokens value ->
      Item (.code tail)
        (⟨pos, .opening⟩ :: ⟨word, .word (.head .define)⟩ :: label ::
          (tokens ++ [⟨ending, .closing⟩]))
        (.define (.plain pos) (.named name) value)
  | conditional {tail pos word testTokens test consequentTokens consequent alternativeTokens
      alternative ending} :
      Item (.code false) testTokens test ->
      Item (.code tail) consequentTokens consequent ->
      Item (.code tail) alternativeTokens alternative ->
      Item (.code tail)
        (⟨pos, .opening⟩ :: ⟨word, .word (.head .conditional)⟩ ::
          (testTokens ++ (consequentTokens ++ (alternativeTokens ++ [⟨ending, .closing⟩]))))
        (.conditional { pos, tail } test consequent alternative)
  | scope {tail pos word kind opening closing tokens last ending} {bindings : List BindingPart}
      {init : List Passage} :
      (forall binding, binding ∈ bindings ->
        Item (.code false) binding.value.tokens binding.value.tree) ->
      (forall part, part ∈ init -> Item (.code false) part.tokens part.tree) ->
      Item (.code true) tokens last ->
      Item (.code tail)
        (⟨pos, .opening⟩ :: ⟨word, .word (.head (.scope kind))⟩ :: ⟨opening, .opening⟩ ::
          (bindings.flatMap BindingPart.tokens ++ ⟨closing, .closing⟩ ::
            (init.flatMap Passage.tokens ++ (tokens ++ [⟨ending, .closing⟩]))))
        (.scope { pos, tail } (if last.reachesRecur then kind else .once)
          (bindings.map BindingPart.pair) (init.map Passage.tree ++ [last]))
  | lambda {tail pos word label name opening closing tokens last ending} {params : List Param}
      {init : List Passage} :
      Label label name ->
      (params.map Param.name).Nodup ->
      (forall part, part ∈ init -> Item (.code false) part.tokens part.tree) ->
      Item (.code true) tokens last ->
      Item (.code tail)
        (⟨pos, .opening⟩ :: ⟨word, .word (.head .lambda)⟩ :: (label ++ ⟨opening, .opening⟩ ::
          (params.map Param.token ++ ⟨closing, .closing⟩ ::
            (init.flatMap Passage.tokens ++ (tokens ++ [⟨ending, .closing⟩])))))
        (.lambda (.plain pos) name (params.map fun param => .named param.name)
          (init.map Passage.tree ++ [last]))
  | recur {pos word ending} {args : List Passage} :
      (forall part, part ∈ args -> Item (.code false) part.tokens part.tree) ->
      Item (.code true)
        (⟨pos, .opening⟩ :: ⟨word, .word (.head .recur)⟩ ::
          (args.flatMap Passage.tokens ++ [⟨ending, .closing⟩]))
        (.recur { pos, tail := true } (args.map Passage.tree))

/-- The tokens of a member stand among those of a row. -/
theorem infix_flatMap {Thing : Type} {tokens : Thing -> List Token} {thing : Thing}
    {things : List Thing} (member : thing ∈ things) : tokens thing <:+: things.flatMap tokens := by
  rw [List.flatMap_def]
  exact List.infix_of_mem_flatten (List.mem_map_of_mem member)

namespace Item

/-- An item has a first token. -/
theorem tokens_ne_nil {slot : Slot} {tokens : List Token} {tree : Tree}
    (item : Item slot tokens tree) : tokens ≠ [] := by
  cases item <;> exact List.cons_ne_nil _ _

end Item

end Grammar

/-! ## Demotion -/

namespace Node

variable {Symbol : Type}

theorem demote_begin_eq_ok {mark : Mark} {init : List (Node Symbol)} {last tree : Node Symbol} :
    (begin mark (init ++ [last])).demote = .ok tree ↔
      Exists fun demoted => last.demote = .ok demoted ∧
        tree = begin (.plain mark.pos) (init ++ [demoted]) := by
  rw [demote, demoteLast_concat]
  cases last.demote with
  | error pos => exact ⟨nofun, nofun⟩
  | ok demoted =>
      constructor
      · intro same
        cases same
        exact ⟨demoted, rfl, rfl⟩
      · rintro ⟨_, same, tree⟩
        cases same
        rw [tree]
        rfl

theorem demote_conditional_eq_ok {mark : Mark} {test consequent alternative tree : Node Symbol} :
    (conditional mark test consequent alternative).demote = .ok tree ↔
      Exists fun left => Exists fun right =>
        consequent.demote = .ok left ∧ alternative.demote = .ok right ∧
          tree = conditional (.plain mark.pos) test left right := by
  rw [demote]
  cases consequent.demote with
  | error pos => exact ⟨nofun, nofun⟩
  | ok left =>
      cases alternative.demote with
      | error pos => exact ⟨nofun, nofun⟩
      | ok right =>
          constructor
          · intro same
            cases same
            exact ⟨left, right, rfl, rfl, rfl⟩
          · rintro ⟨_, _, sameLeft, sameRight, tree⟩
            cases sameLeft
            cases sameRight
            rw [tree]
            rfl

/-- Demotion changes nothing but marks. -/
theorem bare_of_demote {node demoted : Node Symbol} (demotes : node.demote = .ok demoted) :
    demoted.bare = node.bare := by
  induction node generalizing demoted with
  | begin mark body bodySame =>
      rcases List.eq_nil_or_concat' body with nothing | ⟨init, last, same⟩
      · subst nothing
        cases demotes
        rfl
      · subst same
        rcases demote_begin_eq_ok.1 demotes with ⟨ending, endingDemoted, same⟩
        have lastSame := bodySame last (by simp) endingDemoted
        rw [bare, bare] at lastSame
        simp only [same, bare, remark, remarkSeries_eq, List.map_append, List.map_singleton,
          lastSame]
  | conditional mark test consequent alternative _ consequentSame alternativeSame =>
      rcases demote_conditional_eq_ok.1 demotes with ⟨left, right, leftDemoted, rightDemoted, same⟩
      have leftSame := consequentSame leftDemoted
      have rightSame := alternativeSame rightDemoted
      rw [bare, bare] at leftSame rightSame
      simp only [same, bare, remark, leftSame, rightSame]
  | recur mark args => cases demotes
  | _ =>
      cases demotes
      rfl

end Node

theorem Token.demote_of_atom {token : Token} {tree : Tree} (atom : token.atom? = some tree) :
    tree.demote = .ok tree := by
  unfold atom? at atom
  split at atom
  case h_3 =>
      rcases Option.map_eq_some_iff.1 atom with ⟨contents, _, same⟩
      rw [← same]
      rfl
  all_goals cases atom
  all_goals rfl

namespace Grammar.Item

/-- An item of a tail slot that can be demoted is, demoted, an item outside. -/
theorem demote {tokens : List Token} {candidate tree : Tree}
    (item : Item (.code true) tokens candidate) (demoted : candidate.demote = .ok tree) :
    Item (.code false) tokens tree := by
  generalize inTail : Slot.code true = slot at item
  induction item generalizing tree with
  | atom atom =>
      rw [Token.demote_of_atom atom] at demoted
      cases demoted
      exact .atom atom
  | ticked datum _ =>
      subst inTail
      cases demoted
      exact .ticked datum
  | empty =>
      cases demoted
      exact .empty
  | list admitted parts _ =>
      subst inTail
      cases demoted
      exact .list (Slot.admits_code.symm.trans admitted) parts
  | dotted admitted parts last _ _ =>
      subst inTail
      cases demoted
      exact .dotted (Slot.admits_code.symm.trans admitted) parts last
  | quote datum _ =>
      cases demoted
      exact .quote datum
  | emptyBegin =>
      cases demoted
      exact .emptyBegin
  | begin init last _ lastDemoted =>
      cases inTail
      rcases Node.demote_begin_eq_ok.1 demoted with ⟨ending, endingDemoted, same⟩
      rw [same]
      exact .begin init (lastDemoted endingDemoted rfl)
  | define named value _ =>
      cases demoted
      exact .define named value
  | conditional test consequent alternative _ consequentDemoted alternativeDemoted =>
      cases inTail
      rcases Node.demote_conditional_eq_ok.1 demoted with
        ⟨left, right, leftDemoted, rightDemoted, same⟩
      rw [same]
      exact .conditional test (consequentDemoted leftDemoted rfl)
        (alternativeDemoted rightDemoted rfl)
  | scope bindings init last _ _ _ =>
      cases demoted
      exact .scope bindings init last
  | lambda label distinct init last _ _ =>
      cases demoted
      exact .lambda label distinct init last
  | recur args _ => cases demoted

/-- An item outside a tail slot is what its tokens give in a tail slot, demoted. -/
theorem promote {tokens : List Token} {tree : Tree} (item : Item (.code false) tokens tree) :
    Exists fun candidate => Item (.code true) tokens candidate ∧ candidate.demote = .ok tree := by
  generalize outside : Slot.code false = slot at item
  induction item with
  | atom atom => exact ⟨_, .atom atom, Token.demote_of_atom atom⟩
  | ticked datum _ =>
      subst outside
      exact ⟨_, .ticked datum, rfl⟩
  | empty => exact ⟨_, .empty, rfl⟩
  | list admitted parts _ =>
      subst outside
      exact ⟨_, .list (Slot.admits_code.symm.trans admitted) parts, rfl⟩
  | dotted admitted parts last _ _ =>
      subst outside
      exact ⟨_, .dotted (Slot.admits_code.symm.trans admitted) parts last, rfl⟩
  | quote datum _ => exact ⟨_, .quote datum, rfl⟩
  | emptyBegin =>
      cases outside
      exact ⟨_, .emptyBegin, rfl⟩
  | begin init last _ lastPromoted =>
      cases outside
      rcases lastPromoted rfl with ⟨candidate, inTail, demoted⟩
      exact ⟨_, .begin init inTail, Node.demote_begin_eq_ok.2 ⟨_, demoted, rfl⟩⟩
  | define named value _ => exact ⟨_, .define named value, rfl⟩
  | conditional test consequent alternative _ consequentPromoted alternativePromoted =>
      cases outside
      rcases consequentPromoted rfl with ⟨left, leftInTail, leftDemoted⟩
      rcases alternativePromoted rfl with ⟨right, rightInTail, rightDemoted⟩
      exact ⟨_, .conditional test leftInTail rightInTail,
        Node.demote_conditional_eq_ok.2 ⟨_, _, leftDemoted, rightDemoted, rfl⟩⟩
  | scope bindings init last _ _ _ =>
      cases outside
      exact ⟨_, .scope bindings init last, rfl⟩
  | lambda label distinct init last _ _ => exact ⟨_, .lambda label distinct init last, rfl⟩
  | recur args _ => cases outside

end Grammar.Item

end TailLisp

import TailLisp.Proofs.Numbering
import TailLisp.Proofs.TableIndependence
import TailLisp.Proofs.TailSlots
import TailLisp.Proofs.Tiling

namespace TailLisp

/-!
The places of nodes.

A node is read from some tokens, and its children from shorter rows among
them, one row behind the other.  The tokens of a row stand side by side in the
text.  Most rows are items of the grammar.  Two kinds of node are not: an inner
pair of a dotted list is read from what is left of the list, and the word for
which a tick stands in data is read from the tick.

Every node has the place of the first token of its row.  Since tokens have
strictly growing offsets, this alone puts the nodes of a tree in order: the
offsets of a walk from the root down never decrease, and no two children of a
node begin at the same byte.
-/

open Grammar

/-! ## Walks -/

namespace Node

variable {Symbol Target : Type}

/-- The parts of a tree in the order of their text.  A conditional has its test
before its branches, a scope the values of its bindings before its body. -/
def children (node : Node Symbol) : List (Node Symbol) :=
  (node.parts false).map Prod.snd

theorem map_snd_bodySlots (tail : Bool) (body : List (Node Symbol)) :
    (bodySlots tail body).map Prod.snd = body := by
  rcases List.eq_nil_or_concat' body with nothing | ⟨init, last, same⟩
  · rw [nothing]
    rfl
  · rw [same, bodySlots_concat, List.map_append, List.map_map]
    exact congrArg (· ++ [last]) (List.map_id init)

@[simp] theorem children_list (mark : Mark) (first : Node Symbol) (others : List (Node Symbol)) :
    (list mark first others).children = first :: others := by
  rw [children, parts, List.map_map]
  exact List.map_id (first :: others)

@[simp] theorem children_begin (mark : Mark) (body : List (Node Symbol)) :
    (begin mark body).children = body :=
  map_snd_bodySlots false body

@[simp] theorem children_scope (mark : Mark) (kind : ScopeKind)
    (bindings : List (Symbol × Node Symbol)) (body : List (Node Symbol)) :
    (scope mark kind bindings body).children = bindings.map Prod.snd ++ body := by
  rw [children, parts, List.map_append, List.map_map, map_snd_bodySlots]
  rfl

@[simp] theorem children_lambda (mark : Mark) (name : Option Bytes) (params : List Symbol)
    (body : List (Node Symbol)) : (lambda mark name params body).children = body :=
  map_snd_bodySlots true body

@[simp] theorem children_recur (mark : Mark) (args : List (Node Symbol)) :
    (recur mark args).children = args := by
  rw [children, parts, List.map_map]
  exact List.map_id args

/-- Induction over trees.  What is to be shown of a node may be assumed of its
children. -/
@[elab_as_elim]
theorem byChildren {motive : Node Symbol -> Prop}
    (step : forall node, (forall child, child ∈ node.children -> motive child) -> motive node)
    (node : Node Symbol) : motive node := by
  induction node with
  | pair mark car cdr inCar inCdr =>
      exact step _ (List.forall_mem_cons.2 ⟨inCar, List.forall_mem_singleton.2 inCdr⟩)
  | list mark first others inFirst inOthers =>
      apply step
      rw [children_list]
      exact List.forall_mem_cons.2 ⟨inFirst, inOthers⟩
  | quote mark datum inDatum => exact step _ (List.forall_mem_singleton.2 inDatum)
  | begin mark body inBody =>
      apply step
      rwa [children_begin]
  | define mark name value inValue => exact step _ (List.forall_mem_singleton.2 inValue)
  | conditional mark test consequent alternative inTest inConsequent inAlternative =>
      exact step _ (List.forall_mem_cons.2 ⟨inTest, List.forall_mem_cons.2 ⟨inConsequent,
        List.forall_mem_singleton.2 inAlternative⟩⟩)
  | scope mark kind bindings body inBindings inBody =>
      apply step
      rw [children_scope, List.forall_mem_append, List.forall_mem_map]
      exact ⟨inBindings, inBody⟩
  | lambda mark name params body inBody =>
      apply step
      rwa [children_lambda]
  | recur mark args inArgs =>
      apply step
      rwa [children_recur]
  | _ => exact step _ nofun

theorem children_map (replace : Symbol -> Target) (node : Node Symbol) :
    (node.map replace).children = node.children.map (Node.map replace) := by
  rw [children, children, parts_map, List.map_map, List.map_map]
  rfl

theorem pos_map (replace : Symbol -> Target) (node : Node Symbol) :
    (node.map replace).pos = node.pos :=
  congrArg Mark.pos (mark_map replace node)

mutual

/-- All nodes of a tree, each before its children. -/
def preorder : Node Symbol -> List (Node Symbol)
  | pair mark car cdr => pair mark car cdr :: (car.preorder ++ cdr.preorder)
  | list mark first others => list mark first others :: (first.preorder ++ preorderOfSeries others)
  | quote mark datum => quote mark datum :: datum.preorder
  | begin mark body => begin mark body :: preorderOfSeries body
  | define mark name value => define mark name value :: value.preorder
  | conditional mark test consequent alternative =>
      conditional mark test consequent alternative ::
        (test.preorder ++ (consequent.preorder ++ alternative.preorder))
  | scope mark kind bindings body =>
      scope mark kind bindings body :: (preorderOfBindings bindings ++ preorderOfSeries body)
  | lambda mark name params body => lambda mark name params body :: preorderOfSeries body
  | recur mark args => recur mark args :: preorderOfSeries args
  | atom => [atom]

def preorderOfSeries : List (Node Symbol) -> List (Node Symbol)
  | [] => []
  | item :: items => item.preorder ++ preorderOfSeries items

def preorderOfBindings : List (Symbol × Node Symbol) -> List (Node Symbol)
  | [] => []
  | (_, value) :: bindings => value.preorder ++ preorderOfBindings bindings

end

theorem preorderOfSeries_eq (items : List (Node Symbol)) :
    preorderOfSeries items = items.flatMap preorder := by
  induction items with
  | nil => rfl
  | cons item items inductionHypothesis =>
      rw [preorderOfSeries, inductionHypothesis, List.flatMap_cons]

theorem preorderOfBindings_eq (bindings : List (Symbol × Node Symbol)) :
    preorderOfBindings bindings = (bindings.map Prod.snd).flatMap preorder := by
  induction bindings with
  | nil => rfl
  | cons binding bindings inductionHypothesis =>
      rw [preorderOfBindings, inductionHypothesis, List.map_cons, List.flatMap_cons]

/-- A walk visits the root and then walks through its children in turn. -/
theorem preorder_eq (node : Node Symbol) :
    node.preorder = node :: node.children.flatMap preorder := by
  cases node with
  | list mark first others =>
      rw [preorder, preorderOfSeries_eq, children_list, List.flatMap_cons]
  | begin mark body => rw [preorder, preorderOfSeries_eq, children_begin]
  | scope mark kind bindings body =>
      rw [preorder, preorderOfSeries_eq, preorderOfBindings_eq, children_scope,
        List.flatMap_append]
  | lambda mark name params body => rw [preorder, preorderOfSeries_eq, children_lambda]
  | recur mark args => rw [preorder, preorderOfSeries_eq, children_recur]
  | _ => simp [preorder, children, parts]

theorem self_mem_preorder (node : Node Symbol) : node ∈ node.preorder := by
  rw [preorder_eq]
  exact List.mem_cons_self

/-- The nodes of a tree stand in the order of their text: a walk never goes back
in it, and each child of a node begins behind those before it. -/
structure InTextOrder (node : Node Symbol) : Prop where
  walk : node.preorder.Pairwise fun earlier later => earlier.pos.offset <= later.pos.offset
  siblings : forall inner, inner ∈ node.preorder ->
    inner.children.Pairwise fun earlier later => earlier.pos.offset < later.pos.offset

end Node

/-! ## Rows of tokens -/

namespace Grammar

/-- Rows that stand in some tokens one behind the other, each without a gap. -/
inductive InOrder : List (List Token) -> List Token -> Prop
  | nil {tokens} : InOrder [] tokens
  | skip {token rows tokens} : InOrder rows tokens -> InOrder rows (token :: tokens)
  | row {row rows tokens} : InOrder rows tokens -> InOrder (row :: rows) (row ++ tokens)

namespace InOrder

variable {rows : List (List Token)} {row tokens later : List Token}

theorem of_row (row : List Token) : InOrder [row] row := by
  have inOrder := @InOrder.row row [] [] .nil
  rwa [List.append_nil] at inOrder

theorem behind (tokens : List Token) (inOrder : InOrder rows later) :
    InOrder rows (tokens ++ later) := by
  induction tokens with
  | nil => exact inOrder
  | cons token tokens inductionHypothesis => exact .skip inductionHypothesis

/-- Pieces of text that each hold a row hold the rows in order. -/
theorem flatMap {Thing : Type} {rowOf tokensOf : Thing -> List Token} (things : List Thing)
    (each : forall thing {rows later}, InOrder rows later ->
      InOrder (rowOf thing :: rows) (tokensOf thing ++ later))
    (inOrder : InOrder rows later) :
    InOrder (things.map rowOf ++ rows) (things.flatMap tokensOf ++ later) := by
  induction things with
  | nil => exact inOrder
  | cons thing things inductionHypothesis =>
      rw [List.flatMap_cons, List.append_assoc]
      exact each thing inductionHypothesis

theorem passages (parts : List Passage) (inOrder : InOrder rows later) :
    InOrder (parts.map Passage.tokens ++ rows) (parts.flatMap Passage.tokens ++ later) :=
  flatMap parts (fun _ => .row) inOrder

/-- The expressions of a body. -/
theorem body (init : List Passage) (last : Passage) (later : List Token) :
    InOrder ((init ++ [last]).map Passage.tokens)
      (init.flatMap Passage.tokens ++ (last.tokens ++ later)) := by
  rw [List.map_append]
  exact passages init (.row .nil)

theorem bindings (bindings : List BindingPart) (inOrder : InOrder rows later) :
    InOrder (bindings.map (fun binding => binding.value.tokens) ++ rows)
      (bindings.flatMap BindingPart.tokens ++ later) := by
  refine flatMap bindings ?_ inOrder
  intro binding rows later inOrder
  rw [BindingPart.tokens, List.cons_append, List.cons_append, List.append_assoc]
  exact .skip (.skip (.row (.skip inOrder)))

theorem flatten_sublist (inOrder : InOrder rows tokens) : rows.flatten.Sublist tokens := by
  induction inOrder with
  | nil => exact List.nil_sublist _
  | skip _ inductionHypothesis => exact inductionHypothesis.cons _
  | row _ inductionHypothesis => exact (List.Sublist.refl _).append inductionHypothesis

theorem subset (inOrder : InOrder rows tokens) (member : row ∈ rows) : row ⊆ tokens :=
  (List.sublist_flatten_of_mem member).trans inOrder.flatten_sublist |>.subset

end InOrder

/-! ## Nodes at their first tokens -/

/-- The tokens from which a node is read. -/
inductive ReadFrom : List Token -> Tree -> Prop
  | item {tokens tree} (slot : Slot) : Item slot tokens tree -> ReadFrom tokens tree
  /-- An inner pair of a dotted list. -/
  | link {slot dot tokens last} {first : Passage} {others : List Passage} :
      (forall part, part ∈ first :: others -> Item slot part.tokens part.tree) ->
      Item slot tokens last ->
      ReadFrom ((first :: others).flatMap Passage.tokens ++ ⟨dot, .dot⟩ :: tokens)
        (Node.chain last ((first :: others).map Passage.tree))
  /-- The word for which a tick stands in data. -/
  | implied {pos} : ReadFrom [⟨pos, .tick⟩] (.symbol (.plain pos) (.reserved .quote))

/-- The node was read from the tokens and has the place of the first, and so
have all nodes inside it, whose tokens are rows of these. -/
inductive Placed {Symbol : Type} (replace : Reference -> Symbol) :
    List Token -> Node Symbol -> Prop
  | first {token tokens tree} {parts : List Passage} :
      ReadFrom (token :: tokens) tree ->
      (tree.map replace).pos = token.pos ->
      (tree.map replace).children = parts.map (fun part => part.tree.map replace) ->
      InOrder (parts.map Passage.tokens) (token :: tokens) ->
      (forall part, part ∈ parts -> Placed replace part.tokens (part.tree.map replace)) ->
      Placed replace (token :: tokens) (tree.map replace)

end Grammar

/-- An atom stands at its token and has no children. -/
theorem Token.pos_of_atom {token : Token} {tree : Tree} (atom : token.atom? = some tree) :
    tree.pos = token.pos ∧ tree.children = [] := by
  unfold atom? at atom
  split at atom
  case h_3 =>
      rcases Option.map_eq_some_iff.1 atom with ⟨contents, _, same⟩
      rw [← same]
      exact ⟨rfl, rfl⟩
  all_goals cases atom
  all_goals exact ⟨rfl, rfl⟩

namespace Grammar.Placed

variable {Symbol : Type} {replace : Reference -> Symbol} {tokens : List Token}

/-- Replacing symbols moves no node. -/
theorem of_tree {token : Token} {rest : List Token} {tree : Tree} (parts : List Passage)
    (read : ReadFrom tokens tree) (begins : tokens = token :: rest) (pos : tree.pos = token.pos)
    (children : tree.children = parts.map Passage.tree)
    (inOrder : InOrder (parts.map Passage.tokens) tokens)
    (placed : forall part, part ∈ parts -> Placed replace part.tokens (part.tree.map replace)) :
    Placed replace tokens (tree.map replace) := by
  subst begins
  refine .first read ((Node.pos_map replace tree).trans pos) ?_ inOrder placed
  rw [Node.children_map, children, List.map_map]
  rfl

theorem exists_first {node : Node Symbol} (placed : Placed replace tokens node) :
    Exists fun token => Exists fun rest => tokens = token :: rest ∧ node.pos = token.pos := by
  cases placed with
  | first _ pos _ _ _ => exact ⟨_, _, rfl, pos⟩

/-- What is left of a dotted list is placed if its elements are.  Where no
element is left before the dot, it is the last one by itself. -/
theorem exists_chain {slot : Slot} {last : Tree} (dot : Position) (parts : List Passage)
    (items : forall part, part ∈ parts -> Item slot part.tokens part.tree)
    (lastItem : Item slot tokens last)
    (placed : forall part, part ∈ parts -> Placed replace part.tokens (part.tree.map replace))
    (lastPlaced : Placed replace tokens (last.map replace)) :
    Exists fun row =>
      Placed replace row ((Node.chain last (parts.map Passage.tree)).map replace) ∧
      forall later, InOrder [row]
        (parts.flatMap Passage.tokens ++ ⟨dot, .dot⟩ :: (tokens ++ later)) := by
  induction parts with
  | nil => exact ⟨tokens, lastPlaced, fun later => .skip (.row .nil)⟩
  | cons first others inductionHypothesis =>
      rcases List.forall_mem_cons.1 placed with ⟨firstPlaced, othersPlaced⟩
      rcases inductionHypothesis (List.forall_mem_cons.1 items).2 othersPlaced with
        ⟨row, rowPlaced, inRest⟩
      rcases firstPlaced.exists_first with ⟨token, rest, same, pos⟩
      rw [Node.pos_map] at pos
      have begins : (first :: others).flatMap Passage.tokens ++ ⟨dot, .dot⟩ :: tokens =
          token :: (rest ++ others.flatMap Passage.tokens ++ ⟨dot, .dot⟩ :: tokens) := by
        rw [List.flatMap_cons, same]
        rfl
      have inOrder : InOrder [first.tokens, row]
          ((first :: others).flatMap Passage.tokens ++ ⟨dot, .dot⟩ :: tokens) := by
        have left := inRest []
        rw [List.append_nil] at left
        rw [List.flatMap_cons, List.append_assoc]
        exact .row left
      refine ⟨(first :: others).flatMap Passage.tokens ++ ⟨dot, .dot⟩ :: tokens, ?_, ?_⟩
      · apply of_tree [first, ⟨row, _⟩] (.link items lastItem) begins pos rfl inOrder
        exact List.forall_mem_cons.2 ⟨firstPlaced, List.forall_mem_singleton.2 rowPlaced⟩
      · intro later
        rw [← List.cons_append, ← List.append_assoc]
        exact .row .nil

/-- An item and all that is inside it stand at their first tokens. -/
theorem of_item {slot : Slot} {tree : Tree} (item : Item slot tokens tree) :
    Placed replace tokens (tree.map replace) := by
  -- Each rule names the passages of its children; their rows are then found in
  -- the tokens of the rule from left to right.
  induction item with
  | @atom slot token tree atom =>
      rcases Token.pos_of_atom atom with ⟨pos, children⟩
      exact of_tree [] (.item slot (.atom atom)) rfl pos children .nil nofun
  | @ticked slot pos tokens datum item placed =>
      cases slot with
      | code tail =>
          exact of_tree [⟨tokens, datum⟩] (.item (.code tail) (.ticked item)) rfl rfl rfl
            (.skip (.of_row tokens)) (List.forall_mem_singleton.2 placed)
      | data =>
          have word : Placed replace [⟨pos, .tick⟩] _ :=
            of_tree [] .implied rfl rfl rfl .nil nofun
          exact of_tree [⟨[⟨pos, .tick⟩], _⟩, ⟨tokens, datum⟩]
            (.item .data (.ticked item))
            rfl rfl rfl (.row (.of_row tokens))
            (List.forall_mem_cons.2 ⟨word, List.forall_mem_singleton.2 placed⟩)
  | @empty slot pos ending =>
      exact of_tree [] (.item slot .empty) rfl rfl rfl .nil nofun
  | @list slot pos ending first others admitted items placed =>
      have inOrder := InOrder.passages (first :: others) (@InOrder.nil [⟨ending, .closing⟩])
      rw [List.append_nil] at inOrder
      exact of_tree (first :: others) (.item slot (.list admitted items)) rfl rfl
        (Node.children_list _ _ _) (.skip inOrder) placed
  | @dotted slot pos dot tokens last ending first others admitted items lastItem placed
      lastPlaced =>
      rcases List.forall_mem_cons.1 placed with ⟨firstPlaced, othersPlaced⟩
      rcases exists_chain dot others (List.forall_mem_cons.1 items).2 lastItem othersPlaced
        lastPlaced with ⟨row, rowPlaced, inRest⟩
      have inOrder : InOrder [first.tokens, row] ((first :: others).flatMap Passage.tokens ++
          ⟨dot, .dot⟩ :: (tokens ++ [⟨ending, .closing⟩])) := by
        rw [List.flatMap_cons, List.append_assoc]
        exact .row (inRest _)
      apply of_tree [first, ⟨row, _⟩] (.item slot (.dotted admitted items lastItem)) rfl rfl
        rfl (.skip inOrder)
      exact List.forall_mem_cons.2 ⟨firstPlaced, List.forall_mem_singleton.2 rowPlaced⟩
  | @quote tail pos word tokens datum ending item placed =>
      exact of_tree [⟨tokens, datum⟩] (.item (.code tail) (.quote item)) rfl rfl rfl
        (.skip (.skip (.row .nil))) (List.forall_mem_singleton.2 placed)
  | @emptyBegin tail pos word ending =>
      exact of_tree [] (.item (.code tail) .emptyBegin) rfl rfl rfl .nil nofun
  | @begin tail pos word tokens last ending init items lastItem placed lastPlaced =>
      apply of_tree (init ++ [⟨tokens, last⟩]) (.item (.code tail) (.begin items lastItem)) rfl rfl
      · rw [Node.children_begin, List.map_append]
        rfl
      · exact .skip (.skip (.body init ⟨tokens, last⟩ _))
      · exact List.forall_mem_append.2 ⟨placed, List.forall_mem_singleton.2 lastPlaced⟩
  | @define tail pos word name tokens value ending label named item placed =>
      exact of_tree [⟨tokens, value⟩] (.item (.code tail) (.define named item)) rfl rfl rfl
        (.skip (.skip (.skip (.row .nil)))) (List.forall_mem_singleton.2 placed)
  | @conditional tail pos word testTokens test consequentTokens consequent alternativeTokens
      alternative ending testItem consequentItem alternativeItem testPlaced consequentPlaced
      alternativePlaced =>
      apply of_tree [⟨testTokens, test⟩, ⟨consequentTokens, consequent⟩,
        ⟨alternativeTokens, alternative⟩]
        (.item (.code tail) (.conditional testItem consequentItem alternativeItem)) rfl rfl rfl
        (.skip (.skip (.row (.row (.row .nil)))))
      exact List.forall_mem_cons.2 ⟨testPlaced, List.forall_mem_cons.2
        ⟨consequentPlaced, List.forall_mem_singleton.2 alternativePlaced⟩⟩
  | @scope tail pos word kind opening closing tokens last ending bindings init bindingItems items
      lastItem bindingsPlaced placed lastPlaced =>
      have inBody := InOrder.body init ⟨tokens, last⟩ [⟨ending, .closing⟩]
      have inOrder := InOrder.bindings bindings (@InOrder.skip ⟨closing, .closing⟩ _ _ inBody)
      apply of_tree (bindings.map BindingPart.value ++ (init ++ [⟨tokens, last⟩]))
        (.item (.code tail) (.scope bindingItems items lastItem)) rfl rfl
      · rw [Node.children_scope, List.map_append, List.map_append, List.map_map, List.map_map]
        rfl
      · rw [List.map_append, List.map_map]
        exact .skip (.skip (.skip inOrder))
      · have values : forall part, part ∈ bindings.map BindingPart.value ->
            Placed replace part.tokens (part.tree.map replace) :=
          List.forall_mem_map.2 bindingsPlaced
        exact List.forall_mem_append.2 ⟨values, List.forall_mem_append.2
          ⟨placed, List.forall_mem_singleton.2 lastPlaced⟩⟩
  | @lambda tail pos word label name opening closing tokens last ending params init labelled
      distinct items lastItem placed lastPlaced =>
      have inBody := InOrder.body init ⟨tokens, last⟩ [⟨ending, .closing⟩]
      have inOrder := (inBody.behind [⟨closing, .closing⟩]).behind (params.map Param.token)
      apply of_tree (init ++ [⟨tokens, last⟩])
        (.item (.code tail) (.lambda labelled distinct items lastItem)) rfl rfl
      · rw [Node.children_lambda, List.map_append]
        rfl
      · exact .skip (.skip (.behind label (.skip inOrder)))
      · exact List.forall_mem_append.2 ⟨placed, List.forall_mem_singleton.2 lastPlaced⟩
  | @recur pos word ending args items placed =>
      have inOrder := InOrder.passages args (@InOrder.nil [⟨ending, .closing⟩])
      rw [List.append_nil] at inOrder
      exact of_tree args (.item (.code true) (.recur items)) rfl rfl (Node.children_recur _ _)
        (.skip (.skip inOrder)) placed

/-- Every node stands at one of the tokens. -/
theorem exists_token {node : Node Symbol} (placed : Placed replace tokens node)
    {inner : Node Symbol} (member : inner ∈ node.preorder) :
    Exists fun token => token ∈ tokens ∧ inner.pos = token.pos := by
  induction placed with
  | @first token tokens tree parts _ pos children inOrder _ inductionHypothesis =>
      rw [Node.preorder_eq, children, List.flatMap_map] at member
      rcases List.mem_cons.1 member with same | member
      · exact ⟨token, List.mem_cons_self, same ▸ pos⟩
      · rcases List.mem_flatMap.1 member with ⟨part, partMember, inside⟩
        rcases inductionHypothesis part partMember inside with ⟨token, tokenMember, pos⟩
        exact ⟨token, inOrder.subset (List.mem_map_of_mem partMember) tokenMember, pos⟩

section

variable (growing : tokens.Pairwise fun earlier later => earlier.pos.offset < later.pos.offset)
include growing

/-- No node inside another begins before it. -/
theorem offset_le {node inner : Node Symbol} (placed : Placed replace tokens node)
    (member : inner ∈ node.preorder) : node.pos.offset <= inner.pos.offset := by
  rcases placed.exists_first with ⟨first, rest, begins, pos⟩
  rcases placed.exists_token member with ⟨token, tokenMember, innerPos⟩
  rw [begins] at growing tokenMember
  rw [pos, innerPos]
  rcases List.mem_cons.1 tokenMember with same | tokenMember
  · rw [same]
  · exact ((List.pairwise_cons.1 growing).1 token tokenMember).le

/-- What is read from one row begins before all that is read from a later one. -/
theorem pairwise_rows {parts : List Passage}
    (inOrder : InOrder (parts.map Passage.tokens) tokens)
    (placed : forall part, part ∈ parts -> Placed replace part.tokens (part.tree.map replace)) :
    parts.Pairwise fun earlier later =>
      forall inner, inner ∈ (earlier.tree.map replace).preorder ->
        forall other, other ∈ (later.tree.map replace).preorder ->
          inner.pos.offset < other.pos.offset := by
  have rows := (List.pairwise_flatten.1 (growing.sublist inOrder.flatten_sublist)).2
  rw [List.pairwise_map] at rows
  apply rows.imp_of_mem
  intro earlier later earlierMember laterMember before inner inside other otherInside
  rcases (placed earlier earlierMember).exists_token inside with ⟨left, leftMember, leftPos⟩
  rcases (placed later laterMember).exists_token otherInside with ⟨right, rightMember, rightPos⟩
  rw [leftPos, rightPos]
  exact before left leftMember right rightMember

/-- Nodes that stand at the first of their tokens are in the order of the text. -/
theorem inTextOrder {node : Node Symbol} (placed : Placed replace tokens node) :
    node.InTextOrder := by
  induction placed with
  | @first token tokens tree parts read pos children inOrder placed inductionHypothesis =>
      have whole := Placed.first read pos children inOrder placed
      have rows := pairwise_rows growing inOrder placed
      have ordered (part : Passage) (member : part ∈ parts) :
          (part.tree.map replace).InTextOrder := by
        have inRow := (growing.sublist inOrder.flatten_sublist).sublist
          (List.sublist_flatten_of_mem (List.mem_map_of_mem member))
        exact inductionHypothesis part member inRow
      have walked : (tree.map replace).preorder = tree.map replace ::
          parts.flatMap fun part => (part.tree.map replace).preorder := by
        rw [Node.preorder_eq, children, List.flatMap_map]
      constructor
      · rw [walked]
        refine List.pairwise_cons.2 ⟨?_, List.pairwise_flatMap.2 ⟨?_, ?_⟩⟩
        · intro inner member
          exact whole.offset_le growing (walked ▸ List.mem_cons_of_mem _ member)
        · intro part member
          exact (ordered part member).walk
        · apply rows.imp
          intro earlier later before inner inside other otherInside
          exact (before inner inside other otherInside).le
      · intro inner member
        rw [walked] at member
        rcases List.mem_cons.1 member with same | member
        · rw [same, children, List.pairwise_map]
          apply rows.imp
          intro earlier later before
          exact before _ (Node.self_mem_preorder _) _ (Node.self_mem_preorder _)
        · rcases List.mem_flatMap.1 member with ⟨part, partMember, inside⟩
          exact (ordered part partMember).siblings inner inside

end

end Grammar.Placed

/-! ## Whole texts -/

namespace SymbolTable

theorem placed_of_readItem {table : SymbolTable} {slot : Slot} {cursor : Cursor}
    {node : Node SymbolId} (done : (table.readItem slot cursor).outcome = .ok node) :
    Exists fun tokens =>
      cursor.Scans tokens (table.readItem slot cursor).cursor ∧
      Placed (table.readItem slot cursor).table.resolve tokens node ∧
      node.InTextOrder := by
  rcases item_of_readItem done with ⟨tokens, tree, scanned, item, filled, same⟩
  have placed : Placed (table.readItem slot cursor).table.resolve tokens node := by
    rw [same, filled]
    exact .of_item item
  exact ⟨tokens, scanned, placed, placed.inTextOrder scanned.growing⟩

theorem placed_of_parseForms {table : SymbolTable} {text : Bytes}
    {result : Interned (List (Node SymbolId))} {forms : List (Node SymbolId)}
    (parsed : table.parseForms text = .ok result) (done : result.outcome = .ok forms) :
    Exists fun rows =>
      (Exists fun pos => Exists fun after =>
        (Cursor.ofText text).tokens = (rows.flatten, .finish pos, after)) ∧
      List.Forall₂ (Placed result.table.resolve) rows forms ∧
      forall form, form ∈ forms -> form.InTextOrder := by
  rcases parts_of_parseForms parsed done with
    ⟨ready, parts, ending, nonempty, items, scanned, ended⟩
  cases parsed.symm.trans (parseForms_of_parts ready nonempty items scanned ended)
  cases done
  refine ⟨parts.map Passage.tokens, ?_, ?_, ?_⟩
  · rw [← List.flatMap_def]
    exact Cursor.tokens_eq_finish_iff.2 ⟨ending, scanned, ended⟩
  · rw [List.forall₂_map_left_iff, List.forall₂_map_right_iff, List.forall₂_same]
    intro part member
    exact .of_item (items part member)
  · intro form formMember
    rcases List.mem_map.1 formMember with ⟨part, member, same⟩
    have growing := scanned.growing
    rw [List.flatMap_def] at growing
    have inPart := growing.sublist (List.sublist_flatten_of_mem (List.mem_map_of_mem member))
    rw [← same]
    exact (Placed.of_item (items part member)).inTextOrder inPart

theorem item_of_parseDatum {table : SymbolTable} {text : Bytes}
    {result : Interned (Node SymbolId)} {node : Node SymbolId}
    (parsed : table.parseDatum text = .ok result) (done : result.outcome = .ok node) :
    table.ready = true ∧ Exists fun tokens => Exists fun tree => Exists fun ending =>
      (Cursor.ofText text).Scans tokens ending ∧
      ending.skipBlank.atEnd = true ∧ Item .data tokens tree ∧
        result.table = table.insertAll tree.names ∧ node = tree.map result.table.resolve := by
  have ready : table.ready = true := by
    by_contra notReady
    cases parsed.symm.trans (parseDatum_of_not_ready notReady text)
  refine ⟨ready, ?_⟩
  cases parsed.symm.trans (parseDatum_of_ready ready text)
  cases outcome : (table.readItem .data (.ofText text)).outcome with
  | error fault =>
      simp only [outcome] at done
      cases done
  | ok found =>
      rcases item_of_readItem outcome with ⟨tokens, tree, scanned, item, filled, same⟩
      by_cases ended : (table.readItem .data (.ofText text)).cursor.skipBlank.atEnd = true
      · simp only [outcome, ended, if_true] at done ⊢
        cases done
        exact ⟨tokens, tree, _, scanned, ended, item, filled, filled ▸ same⟩
      · simp only [outcome, ended] at done
        cases done

theorem parseDatum_of_item {table : SymbolTable} {text : Bytes} {tokens : List Token}
    {tree : Tree} {ending : Cursor} (ready : table.ready = true) (item : Item .data tokens tree)
    (scanned : (Cursor.ofText text).Scans tokens ending) (ended : ending.skipBlank.atEnd = true) :
    table.parseDatum text =
      .ok { outcome := .ok (tree.map (table.insertAll tree.names).resolve)
            table := table.insertAll tree.names
            cursor := ending.skipBlank } := by
  rw [parseDatum_of_ready ready text, readItem_of_item scanned item]
  simp only [ended, if_true]

theorem placed_of_parseDatum {table : SymbolTable} {text : Bytes}
    {result : Interned (Node SymbolId)} {node : Node SymbolId}
    (parsed : table.parseDatum text = .ok result) (done : result.outcome = .ok node) :
    Exists fun tokens =>
      (Exists fun pos => Exists fun after =>
        (Cursor.ofText text).tokens = (tokens, .finish pos, after)) ∧
      Placed result.table.resolve tokens node ∧
      node.InTextOrder := by
  rcases item_of_parseDatum parsed done with
    ⟨_, tokens, tree, ending, scanned, ended, item, _, same⟩
  have placed : Placed result.table.resolve tokens node := by
    rw [same]
    exact .of_item item
  exact ⟨tokens, Cursor.tokens_eq_finish_iff.2 ⟨ending, scanned, ended⟩, placed,
    placed.inTextOrder scanned.growing⟩

/-- Every node that is read has the place of the first token of its text.  The
forms of a program take up its tokens row by row, a datum takes up all tokens of
its text, and a single item those from which the cursor is moved on, wherever
the cursor stands.  In each tree a walk from the root down never goes back in
the text, and the children of a node begin one behind the other. -/
theorem nodes_stand_at_first_tokens (table : SymbolTable) :
    (forall text result forms, table.parseForms text = .ok result -> result.outcome = .ok forms ->
      Exists fun rows =>
        (Exists fun pos => Exists fun after =>
          (Cursor.ofText text).tokens = (rows.flatten, .finish pos, after)) ∧
        List.Forall₂ (Placed result.table.resolve) rows forms ∧
        forall form, form ∈ forms -> form.InTextOrder) ∧
    (forall text result node, table.parseDatum text = .ok result -> result.outcome = .ok node ->
      Exists fun tokens =>
        (Exists fun pos => Exists fun after =>
          (Cursor.ofText text).tokens = (tokens, .finish pos, after)) ∧
        Placed result.table.resolve tokens node ∧
        node.InTextOrder) ∧
    (forall slot cursor node, (table.readItem slot cursor).outcome = .ok node ->
      Exists fun tokens =>
        cursor.Scans tokens (table.readItem slot cursor).cursor ∧
        Placed (table.readItem slot cursor).table.resolve tokens node ∧
        node.InTextOrder) := by
  refine ⟨?_, ?_, ?_⟩
  · intro text result forms parsed done
    exact placed_of_parseForms parsed done
  · intro text result node parsed done
    exact placed_of_parseDatum parsed done
  · intro slot cursor node done
    exact placed_of_readItem done

/-- A tick inside a dotted list.  The inner pair, the list for which the tick
stands and the word in it all have the place of the tick. -/
theorem nodes_stand_at_first_tokens_dotted :
    (Exists fun result => Exists fun form =>
      empty.prepare.parseForms (Bytes.ofText "'(a 'b . c)") = .ok result ∧
      result.outcome = .ok [form] ∧
      form.preorder.map (fun node => node.pos.offset) = [0, 1, 2, 4, 4, 4, 5, 9] ∧
      form.InTextOrder) ∧
    (Exists fun result => Exists fun node =>
      empty.prepare.parseDatum (Bytes.ofText "'(a 'b . c)") = .ok result ∧
      result.outcome = .ok node ∧
      node.preorder.map (fun node => node.pos.offset) = [0, 0, 1, 2, 4, 4, 4, 5, 9] ∧
      node.InTextOrder) ∧
    Exists fun node =>
      (empty.prepare.readItem .data (.ofText (Bytes.ofText "'(a 'b . c)"))).outcome = .ok node ∧
      node.InTextOrder := by
  have quoted : Item .data [⟨⟨1, 4, 4⟩, .tick⟩, ⟨⟨1, 5, 5⟩, .symbol (Bytes.ofText "b")⟩] _ :=
    .ticked (.atom rfl)
  have first : Item .data [⟨⟨1, 2, 2⟩, .symbol (Bytes.ofText "a")⟩] _ := .atom rfl
  have last : Item .data [⟨⟨1, 9, 9⟩, .symbol (Bytes.ofText "c")⟩] _ := .atom rfl
  have datum := @Item.dotted .data ⟨1, 1, 1⟩ ⟨1, 7, 7⟩ _ _ ⟨1, 10, 10⟩ ⟨_, _⟩ [⟨_, _⟩] rfl
    (List.forall_mem_cons.2 ⟨first, List.forall_mem_singleton.2 quoted⟩) last
  have item (slot : Slot) := @Item.ticked slot ⟨1, 0, 0⟩ _ _ datum
  have scanned : (Cursor.ofText (Bytes.ofText "'(a 'b . c)")).Scans _ ⟨⟨1, 11, 11⟩, []⟩ :=
    .cons rfl (.cons rfl (.cons rfl (.cons rfl (.cons rfl (.cons rfl (.cons rfl (.cons rfl
      (.nil _))))))))
  have parsed := parseForms_of_item (ready_prepare empty) (item (.code false)) scanned rfl
  have read := @readItem_of_item empty.prepare _ _ _ _ _ scanned (item .data)
  have alsoParsed := parseDatum_of_ready (ready_prepare empty) (Bytes.ofText "'(a 'b . c)")
  rw [read] at alsoParsed
  rcases nodes_stand_at_first_tokens empty.prepare with ⟨forms, data, items⟩
  refine ⟨?_, ?_, ?_⟩
  · rcases forms _ _ _ parsed rfl with ⟨rows, _, _, ordered⟩
    exact ⟨_, _, parsed, rfl, rfl, ordered _ (List.mem_singleton.2 rfl)⟩
  · rcases data _ _ _ alsoParsed rfl with ⟨tokens, _, _, ordered⟩
    exact ⟨_, _, alsoParsed, rfl, rfl, ordered⟩
  · have done := congrArg Interned.outcome read
    rcases items _ _ _ done with ⟨tokens, _, _, ordered⟩
    exact ⟨_, done, ordered⟩

end SymbolTable

end TailLisp

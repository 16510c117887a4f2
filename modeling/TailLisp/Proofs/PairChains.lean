import TailLisp.Node.Expansion
import TailLisp.Proofs.Sameness

namespace TailLisp

/-!
Lists and chains of pairs.

A list says what the chain of pairs over its elements says.  `chained` writes a
tree without any list, by taking each of them for such a chain, and two trees
say the same if they agree in that form but for their marks.

Expanding a tree changes how its outermost lists are written and nothing else.
It stops at pairs and special forms, so lists can be left inside them, but never
at the root, and none at all where only atoms and lists stand in the tree.
-/

namespace Node

variable {Symbol : Type}

/-! ## Trees without lists -/

mutual

/-- The tree with every list in it, wherever it stands, written as the chain of
pairs over its elements that ends in the empty list. -/
def chained : Node Symbol -> Node Symbol
  | pair mark car cdr => pair mark car.chained cdr.chained
  | list mark first others =>
      chain (empty (.plain mark.pos)) (first.chained :: chainedSeries others)
  | quote mark datum => quote mark datum.chained
  | begin mark body => begin mark (chainedSeries body)
  | define mark name value => define mark name value.chained
  | conditional mark test consequent alternative =>
      conditional mark test.chained consequent.chained alternative.chained
  | scope mark kind bindings body =>
      scope mark kind (chainedBindings bindings) (chainedSeries body)
  | lambda mark name params body => lambda mark name params (chainedSeries body)
  | recur mark args => recur mark (chainedSeries args)
  | atom => atom

def chainedSeries : List (Node Symbol) -> List (Node Symbol)
  | [] => []
  | item :: items => item.chained :: chainedSeries items

def chainedBindings : List (Symbol × Node Symbol) -> List (Symbol × Node Symbol)
  | [] => []
  | (name, value) :: bindings => (name, value.chained) :: chainedBindings bindings

end

theorem chainedSeries_eq (items : List (Node Symbol)) :
    chainedSeries items = items.map chained := by
  induction items with
  | nil => rfl
  | cons item items inductionHypothesis =>
      rw [chainedSeries, inductionHypothesis, List.map_cons]

theorem chainedBindings_eq (bindings : List (Symbol × Node Symbol)) :
    chainedBindings bindings = bindings.map fun binding => (binding.1, binding.2.chained) := by
  induction bindings with
  | nil => rfl
  | cons binding bindings inductionHypothesis =>
      rw [chainedBindings, inductionHypothesis, List.map_cons]

theorem exists_list_of_kind {node : Node Symbol} (isList : node.kind = .list) :
    Exists fun mark => Exists fun first => Exists fun others => node = list mark first others := by
  cases node with
  | list mark first others => exact ⟨mark, first, others, rfl⟩
  | _ => cases isList

/-- A node that is no list stays what it is, and its children are rewritten. -/
theorem children_chained {node : Node Symbol} (notList : node.kind ≠ .list) :
    node.chained.kind = node.kind ∧ node.chained.children = node.children.map chained := by
  cases node with
  | list mark first others => exact absurd rfl notList
  | begin mark body =>
      rw [chained, chainedSeries_eq, children_begin, children_begin]
      exact ⟨rfl, rfl⟩
  | scope mark kind bindings body =>
      rw [chained, chainedSeries_eq, chainedBindings_eq, children_scope, children_scope,
        List.map_append, List.map_map, List.map_map]
      exact ⟨rfl, rfl⟩
  | lambda mark name params body =>
      rw [chained, chainedSeries_eq, children_lambda, children_lambda]
      exact ⟨rfl, rfl⟩
  | recur mark args =>
      rw [chained, chainedSeries_eq, children_recur, children_recur]
      exact ⟨rfl, rfl⟩
  | _ => exact ⟨rfl, rfl⟩

/-- No node of the tree is a list. -/
def ListFree (node : Node Symbol) : Prop :=
  forall inner, inner ∈ node.preorder -> inner.kind ≠ .list

namespace ListFree

theorem of_children {node : Node Symbol} (notList : node.kind ≠ .list)
    (inChildren : forall child, child ∈ node.children -> child.ListFree) : node.ListFree := by
  intro inner member
  rw [preorder_eq] at member
  rcases List.mem_cons.1 member with same | member
  · rw [same]
    exact notList
  · rcases List.mem_flatMap.1 member with ⟨child, isChild, inside⟩
    exact inChildren child isChild inner inside

theorem pair {mark : Mark} {car cdr : Node Symbol} (inCar : car.ListFree) (inCdr : cdr.ListFree) :
    (Node.pair mark car cdr).ListFree := by
  apply of_children NodeKind.noConfusion
  exact List.forall_mem_cons.2 ⟨inCar, List.forall_mem_singleton.2 inCdr⟩

theorem empty (mark : Mark) : (Node.empty mark : Node Symbol).ListFree :=
  of_children NodeKind.noConfusion nofun

theorem chain {items : List (Node Symbol)} {ending : Node Symbol}
    (inItems : forall item, item ∈ items -> item.ListFree) (inEnding : ending.ListFree) :
    (Node.chain ending items).ListFree := by
  induction items with
  | nil => exact inEnding
  | cons item items inductionHypothesis =>
      rcases List.forall_mem_cons.1 inItems with ⟨inFirst, inOthers⟩
      exact pair inFirst (inductionHypothesis inOthers)

end ListFree

/-- A tree without lists is what `chained` promises. -/
theorem listFree_chained (node : Node Symbol) : node.chained.ListFree := by
  induction node using byChildren with
  | step node inChildren =>
      by_cases isList : node.kind = .list
      · rcases exists_list_of_kind isList with ⟨mark, first, others, same⟩
        subst same
        rw [children_list] at inChildren
        rw [chained, chainedSeries_eq, ← List.map_cons]
        exact .chain (List.forall_mem_map.2 inChildren) (.empty _)
      · rcases children_chained isList with ⟨sameKind, sameChildren⟩
        apply ListFree.of_children
        · rw [sameKind]
          exact isList
        · rw [sameChildren]
          exact List.forall_mem_map.2 inChildren

/-! ## Expanding -/

/-- What is no list is only copied. -/
theorem expand_of_kind_ne_list {node : Node Symbol} (notList : node.kind ≠ .list) :
    node.expand = node := by
  cases node with
  | list mark first others => exact absurd rfl notList
  | _ => exact copy_eq _

/-- A list becomes the chain of its expanded elements. -/
theorem expand_list (mark : Mark) (first : Node Symbol) (others : List (Node Symbol)) :
    (list mark first others).expand = expandSeries mark.pos (first :: others) := by
  rw [expand, expandSeries]

theorem kind_expand_ne_list (node : Node Symbol) : node.expand.kind ≠ .list := by
  by_cases isList : node.kind = .list
  · rcases exists_list_of_kind isList with ⟨mark, first, others, same⟩
    rw [same, expand_list]
    exact NodeKind.noConfusion
  · rw [expand_of_kind_ne_list isList]
    exact isList

/-- Nothing is left to expand at the root of what was expanded. -/
theorem expand_expand (node : Node Symbol) : node.expand.expand = node.expand :=
  expand_of_kind_ne_list (kind_expand_ne_list node)

theorem bare_chained_expandSeries (pos : Position) {items : List (Node Symbol)}
    (itemsSame : forall item, item ∈ items -> item.expand.chained.bare = item.chained.bare) :
    (expandSeries pos items).chained.bare =
      (chain (empty (.plain pos)) (items.map chained)).bare := by
  induction items with
  | nil => rfl
  | cons item items inductionHypothesis =>
      rcases List.forall_mem_cons.1 itemsSame with ⟨firstSame, othersSame⟩
      have laterSame := inductionHypothesis othersSame
      rw [bare, bare] at firstSame laterSame
      rw [expandSeries, chained, List.map_cons, chain, bare, bare, remark, remark, firstSame,
        laterSame]

/-- Expanding keeps what the tree says. -/
theorem bare_chained_expand (node : Node Symbol) :
    node.expand.chained.bare = node.chained.bare := by
  induction node using byChildren with
  | step node childrenSame =>
      by_cases isList : node.kind = .list
      · rcases exists_list_of_kind isList with ⟨mark, first, others, same⟩
        subst same
        rw [children_list] at childrenSame
        rw [expand_list, bare_chained_expandSeries mark.pos childrenSame, chained,
          chainedSeries_eq, List.map_cons]
      · rw [expand_of_kind_ne_list isList]

/-- The kinds of nodes of which nested lists of atoms are made. -/
def nestingKinds : List NodeKind :=
  [.integer, .char, .string, .boolean, .symbol, .empty, .list]

/-- A node of such a kind has children only if it is a list. -/
theorem children_eq_nil_of_kind {node : Node Symbol} (nesting : node.kind ∈ nestingKinds)
    (notList : node.kind ≠ .list) : node.children = [] := by
  cases node with
  | list mark first others => exact absurd rfl notList
  | pair | quote | begin | define | conditional | scope | lambda | recur =>
      simp [kind, nestingKinds] at nesting
  | _ => rfl

theorem listFree_expandSeries (pos : Position) {items : List (Node Symbol)}
    (inItems : forall item, item ∈ items -> item.expand.ListFree) :
    (expandSeries pos items).ListFree := by
  induction items with
  | nil => exact .empty _
  | cons item items inductionHypothesis =>
      rcases List.forall_mem_cons.1 inItems with ⟨inFirst, inOthers⟩
      exact .pair inFirst (inductionHypothesis inOthers)

/-- Nested lists of atoms are expanded all the way down. -/
theorem listFree_expand {node : Node Symbol}
    (nested : forall inner, inner ∈ node.preorder -> inner.kind ∈ nestingKinds) :
    node.expand.ListFree := by
  induction node using byChildren with
  | step node inChildren =>
      rw [preorder_eq, List.forall_mem_cons, List.forall_mem_flatMap] at nested
      rcases nested with ⟨atRoot, below⟩
      by_cases isList : node.kind = .list
      · rcases exists_list_of_kind isList with ⟨mark, first, others, same⟩
        subst same
        rw [children_list] at inChildren below
        rw [expand_list]
        apply listFree_expandSeries
        intro item member
        exact inChildren item member (below item member)
      · rw [expand_of_kind_ne_list isList]
        apply ListFree.of_children isList
        rw [children_eq_nil_of_kind atRoot isList]
        nofun

/-! ## What expanding keeps and what it leaves -/

/-- Expanding keeps what a tree says: with every list taken for its chain of
pairs, the expanded tree and the tree itself agree but for their marks.  The
root is then no list, so that expanding once more changes nothing, and in nested
lists of atoms no list is left at all. -/
theorem expand_says_the_same (node : Node SymbolId) :
    node.chained.ListFree ∧
    node.expand.chained.bare = node.chained.bare ∧
    node.expand.kind ≠ .list ∧
    node.expand.expand.same node.expand = true ∧
    ((forall inner, inner ∈ node.preorder -> inner.kind ∈ nestingKinds) ->
      node.expand.ListFree) := by
  refine ⟨listFree_chained node, bare_chained_expand node, kind_expand_ne_list node, ?_,
    listFree_expand⟩
  rw [expand_expand]
  exact (same_iff_bare_eq _ _).2 rfl

/-- The list `((a) () b)` with numbers for its symbols.  The list inside it is
expanded as well, and each of the two chains has its own end. -/
theorem expand_says_the_same_nested :
    let nested : Node SymbolId :=
      list ⟨⟨1, 0, 0⟩, true⟩
        (list (.plain ⟨1, 1, 1⟩) (symbol (.plain ⟨1, 2, 2⟩) 8) [])
        [empty (.plain ⟨1, 5, 5⟩), symbol (.plain ⟨1, 8, 8⟩) 9]
    (forall inner, inner ∈ nested.preorder -> inner.kind ∈ nestingKinds) ∧
      nested.expand.preorder.map kind =
        [.pair, .pair, .symbol, .empty, .pair, .empty, .pair, .symbol, .empty] ∧
      nested.expand.ListFree := by
  intro nested
  have ofNesting : forall inner, inner ∈ nested.preorder -> inner.kind ∈ nestingKinds := by
    rw [← List.forall_mem_map]
    decide +kernel
  exact ⟨ofNesting, by decide +kernel, (expand_says_the_same nested).2.2.2.2 ofNesting⟩

end Node

end TailLisp

import TailLisp.Proofs.Printing
import TailLisp.Proofs.TailSlots
import TailLisp.Session

namespace TailLisp

/-!
Code as data.

A text can be read as a program or, item by item, as data.  The two readings
give different trees: where code has a special form, data have the list of its
parts.  The printer does not tell them apart.  Every special form is written
as the list of its word and its parts, and each part, be it a label, a list of
parameters or a list of bindings, is written as the datum with the same tokens.

There is one exception.  A `loop` that never reaches a `recur` is read as a
`let`, and its first word is printed as `let` although the text says `loop`.
`KeepsLoops` excludes it: no `let` of the tree stands where the tokens begin a
`loop`.
-/

open Grammar

namespace Node

variable {Symbol Target : Type}

/-! ## Loops that stay loops -/

/-- No `let` in a tree in a slot stands where the tokens begin a `loop`. -/
def KeepsLoops (tokens : List Token) (tail : Bool) (root : Node Symbol) : Prop :=
  forall inTail mark bindings body, Stands tail root inTail (scope mark .once bindings body) ->
    forall word, ¬ [⟨mark.pos, .opening⟩, ⟨word, .word (.head (.scope .loop))⟩] <:+: tokens

namespace KeepsLoops

variable {tokens inner : List Token} {tail slot : Bool} {root part : Node Symbol}

theorem restrict (kept : root.KeepsLoops tokens tail) (inside : inner <:+: tokens) :
    root.KeepsLoops inner tail := by
  intro inTail mark bindings body stands word found
  exact kept inTail mark bindings body stands word (found.trans inside)

/-- What holds of a tree and its tokens holds of each part and the tokens of
the part. -/
theorem within (kept : root.KeepsLoops tokens tail) (member : (slot, part) ∈ root.parts tail)
    (inside : inner <:+: tokens) : part.KeepsLoops inner slot := by
  refine restrict ?_ inside
  intro inTail mark bindings body stands
  exact kept inTail mark bindings body (.within member stands)

/-- Of a chain of pairs it holds of the elements and of the end. -/
theorem of_chain {items : List (Node Symbol)} {ending : Node Symbol}
    (kept : (chain ending items).KeepsLoops tokens false) :
    (forall item, item ∈ items -> item.KeepsLoops tokens false) ∧
      ending.KeepsLoops tokens false := by
  induction items with
  | nil => exact ⟨nofun, kept⟩
  | cons item items inductionHypothesis =>
      have atItem := kept.within (.head _) List.infix_rfl
      have later := inductionHypothesis (kept.within (.tail _ (.head _)) List.infix_rfl)
      exact ⟨List.forall_mem_cons.2 ⟨atItem, later.1⟩, later.2⟩

/-- It is enough to look at the root and, in turn, at its parts. -/
theorem of_parts
    (atRoot : forall mark bindings body, root = scope mark .once bindings body ->
      forall word, ¬ [⟨mark.pos, .opening⟩, ⟨word, .word (.head (.scope .loop))⟩] <:+: tokens)
    (inParts : forall slot part, (slot, part) ∈ root.parts tail -> part.KeepsLoops tokens slot) :
    root.KeepsLoops tokens tail := by
  intro inTail mark bindings body stands
  cases stands with
  | root => exact atRoot mark bindings body rfl
  | within member inside => exact inParts _ _ member _ _ _ _ inside

/-- A scope whose loop is kept is of the kind that its word says. -/
theorem kind {pos word : Position} {kind : ScopeKind} {reaches : Bool} {rest : List Token}
    {flag : Bool} {bindings : List (Symbol × Node Symbol)} {body : List (Node Symbol)}
    (kept : (scope ⟨pos, flag⟩ (if reaches then kind else .once) bindings body).KeepsLoops
      (⟨pos, .opening⟩ :: ⟨word, .word (.head (.scope kind))⟩ :: rest) tail) :
    (if reaches then kind else .once) = kind := by
  cases reaches with
  | true => rfl
  | false =>
      cases kind with
      | once => rfl
      | loop =>
          exact (kept _ _ _ _ .root word (List.prefix_append [_, _] rest).isInfix).elim

end KeepsLoops

/-- Whether loops are kept does not depend on what stands for a symbol. -/
theorem KeepsLoops.of_map {replace : Symbol -> Target} {tokens : List Token} {tail : Bool}
    {root : Node Symbol} (kept : (root.map replace).KeepsLoops tokens tail) :
    root.KeepsLoops tokens tail := by
  intro inTail mark bindings body stands
  exact kept inTail mark _ _ (stands.map replace)

/-! ## Lists as text -/

/-- A list is written as its elements with spaces between them. -/
theorem printAt_ofList (name : Symbol -> Bytes) (inChain : Bool) (mark : Mark)
    (items : List (Node Symbol)) :
    (ofList mark items).printAt name inChain =
      place inChain (parenthesized (Bytes.spaced (items.map (print name)))) := by
  cases items with
  | nil => rfl
  | cons first others =>
      rw [ofList, printAt, printSeries_eq, List.map_cons, Spells.spaced_cons, List.flatMap_map]
      rfl

/-- The text of a special form that is written as its word and some parts. -/
def printForm (name : Symbol -> Bytes) (inChain : Bool) (form : SpecialForm)
    (parts : List (Node Symbol)) : Bytes :=
  place inChain (parenthesized (form.name ++ printSeries name parts))

section Forms

variable (name : Symbol -> Bytes) (inChain : Bool) (mark : Mark)

theorem printAt_quote (datum : Node Symbol) :
    (quote mark datum).printAt name inChain = printForm name inChain .quote [datum] := by
  simp only [printAt, printForm, printSeries, List.append_nil, ← List.append_assoc]
  rfl

theorem printAt_define (place : Mark) (label : Symbol) (value : Node Symbol) :
    (define mark label value).printAt name inChain =
      printForm name inChain .define [symbol place label, value] := by
  simp only [printAt, printForm, printSeries, List.append_nil, ← List.append_assoc]
  rfl

theorem printAt_conditional (test consequent alternative : Node Symbol) :
    (conditional mark test consequent alternative).printAt name inChain =
      printForm name inChain .conditional [test, consequent, alternative] := by
  simp only [printAt, printForm, printSeries, List.append_nil, ← List.append_assoc]
  rfl

theorem printAt_scope {kind : ScopeKind} {bindings : List (Symbol × Node Symbol)}
    {lists : List (Node Symbol)} (alike : lists.map (print name) = printBindings name bindings)
    (place : Mark) (body : List (Node Symbol)) :
    (scope mark kind bindings body).printAt name inChain =
      printForm name inChain (.scope kind) (ofList place lists :: body) := by
  simp only [printAt, printForm, printSeries, printAt_ofList, alike, ← List.append_assoc]
  rfl

theorem printAt_lambda {params : List Symbol} {symbols : List (Node Symbol)}
    (alike : symbols.map (print name) = params.map name) (place : Mark)
    (body : List (Node Symbol)) :
    (lambda mark none params body).printAt name inChain =
      printForm name inChain .lambda (ofList place symbols :: body) := by
  simp only [printAt, printForm, printSeries, printAt_ofList, alike, ← List.append_assoc]
  rfl

theorem printAt_named_lambda {params : List Symbol} {symbols : List (Node Symbol)}
    (alike : symbols.map (print name) = params.map name) (labelPlace place : Mark) (label : Symbol)
    (body : List (Node Symbol)) :
    (lambda mark (some (name label)) params body).printAt name inChain =
      printForm name inChain .lambda
        (symbol labelPlace label :: ofList place symbols :: body) := by
  simp only [printAt, printForm, printSeries, printAt_ofList, alike, printLambdaName,
    ← List.append_assoc]
  rfl

end Forms

/-- Printing a tree by names is printing the tree of the names. -/
theorem print_map_name (name : Symbol -> Bytes) (node : Node Symbol) :
    (node.map name).print id = node.print name := by
  rw [print, printAt_map]
  rfl

/-- A chain of pairs is written from the texts of its elements and of its end. -/
theorem printAt_chain_congr {name : Symbol -> Bytes} {ending other : Node Symbol}
    (endsAlike : forall inChain, ending.printAt name inChain = other.printAt name inChain)
    {items others : List (Node Symbol)} (alike : items.map (print name) = others.map (print name))
    (inChain : Bool) :
    (chain ending items).printAt name inChain = (chain other others).printAt name inChain := by
  induction items generalizing others inChain with
  | nil =>
      rw [List.map_nil, eq_comm, List.map_eq_nil_iff] at alike
      rw [alike]
      exact endsAlike inChain
  | cons item items inductionHypothesis =>
      cases others with
      | nil => cases alike
      | cons next others =>
          rw [List.map_cons, List.map_cons, List.cons.injEq] at alike
          rw [chain, chain, printAt, printAt, ← print, ← print, alike.1,
            inductionHypothesis alike.2]

end Node

/-! ## Passages that can be read as data -/

namespace Grammar

/-- The tokens are a datum that is written like the tree, by itself and at the
end of a chain of pairs. -/
def Literal (tokens : List Token) (tree : Tree) : Prop :=
  Exists fun datum => Item .data tokens datum ∧
    forall inChain,
      datum.printAt Reference.spelling inChain = tree.printAt Reference.spelling inChain

/-- Data in parentheses are a list. -/
theorem Item.ofList {pos ending : Position} {parts : List Passage}
    (items : forall part, part ∈ parts -> Item .data part.tokens part.tree) :
    Item .data (⟨pos, .opening⟩ :: (parts.flatMap Passage.tokens ++ [⟨ending, .closing⟩]))
      (.ofList (.plain pos) (parts.map Passage.tree)) := by
  cases parts with
  | nil => exact .empty
  | cons first others => exact .list rfl items

/-- A binding as the list of its name and its value. -/
def BindingPart.asList (binding : BindingPart) : Passage where
  tokens := binding.tokens
  tree := .list (.plain binding.opening) (.symbol (.plain binding.label) (.named binding.name))
    [binding.value.tree]

/-- A parameter as a symbol. -/
def Param.asSymbol (param : Param) : Passage where
  tokens := [param.token]
  tree := .symbol (.plain param.pos) (.named param.name)

/-- Some passages in parentheses as a list. -/
def Passage.enclose (opening closing : Position) (parts : List Passage) : Passage where
  tokens := ⟨opening, .opening⟩ :: (parts.flatMap Passage.tokens ++ [⟨closing, .closing⟩])
  tree := .ofList (.plain opening) (parts.map Passage.tree)

theorem flatMap_tokens_asList (bindings : List BindingPart) :
    (bindings.map BindingPart.asList).flatMap Passage.tokens =
      bindings.flatMap BindingPart.tokens :=
  List.flatMap_map _ _ _

theorem flatMap_tokens_asSymbol (params : List Param) :
    (params.map Param.asSymbol).flatMap Passage.tokens = params.map Param.token := by
  rw [List.flatMap_map, List.map_eq_flatMap]
  rfl

/-- Nodes with the names of some passages have the texts of the passages. -/
theorem map_print_eq {name : SymbolId -> Bytes} {nodes : List (Node SymbolId)}
    {parts : List Passage}
    (named : nodes.map (Node.map name) = parts.map fun part => part.tree.map Reference.spelling) :
    nodes.map (Node.print name) =
      (parts.map Passage.tree).map (Node.print Reference.spelling) := by
  calc nodes.map (Node.print name)
      = (nodes.map (Node.map name)).map (Node.print id) := by
        rw [List.map_map]
        exact List.map_congr_left fun node _ => (Node.print_map_name name node).symm
    _ = (parts.map fun part => part.tree.map Reference.spelling).map (Node.print id) := by
        rw [named]
    _ = (parts.map Passage.tree).map (Node.print Reference.spelling) := by
        rw [List.map_map, List.map_map]
        exact List.map_congr_left fun part _ => Node.print_map_name Reference.spelling part.tree

namespace Literal

/-- Passages in a row are read as data in a row. -/
theorem row {parts : List Passage}
    (literal : forall part, part ∈ parts -> Literal part.tokens part.tree) :
    Exists fun data : List Passage =>
      (forall datum, datum ∈ data -> Item .data datum.tokens datum.tree) ∧
        data.flatMap Passage.tokens = parts.flatMap Passage.tokens ∧
          (data.map Passage.tree).map (Node.print Reference.spelling) =
            (parts.map Passage.tree).map (Node.print Reference.spelling) := by
  induction parts with
  | nil => exact ⟨[], nofun, rfl, rfl⟩
  | cons part parts inductionHypothesis =>
      rcases List.forall_mem_cons.1 literal with ⟨⟨datum, item, alike⟩, others⟩
      rcases inductionHypothesis others with ⟨data, items, sameTokens, sameTexts⟩
      refine ⟨⟨part.tokens, datum⟩ :: data, List.forall_mem_cons.2 ⟨item, items⟩, ?_, ?_⟩
      · rw [List.flatMap_cons, List.flatMap_cons, sameTokens]
      · rw [List.map_cons, List.map_cons, List.map_cons, List.map_cons, sameTexts, Node.print,
          Node.print, alike]

/-- A tree that is written as the list of some parts is a literal if the parts
are.  Their tokens stand among those of the list. -/
theorem enclosed {pos ending : Position} {parts : List Passage} {tree : Tree}
    (literal : forall part, part ∈ parts ->
      part.tokens <:+: ⟨pos, .opening⟩ :: (parts.flatMap Passage.tokens ++ [⟨ending, .closing⟩]) ->
        Literal part.tokens part.tree)
    (printed : forall inChain, tree.printAt Reference.spelling inChain =
      (Node.ofList (.plain pos) (parts.map Passage.tree)).printAt Reference.spelling inChain) :
    Literal (⟨pos, .opening⟩ :: (parts.flatMap Passage.tokens ++ [⟨ending, .closing⟩])) tree := by
  have literals : forall part, part ∈ parts -> Literal part.tokens part.tree := by
    intro part member
    apply literal part member
    exact (infix_flatMap member).trans (List.infix_append' [_] _ _)
  rcases row literals with ⟨data, items, sameTokens, sameTexts⟩
  rw [← sameTokens]
  refine ⟨_, Item.ofList items, ?_⟩
  intro inChain
  rw [printed, Node.printAt_ofList, Node.printAt_ofList, sameTexts]

/-- A dotted list is a literal if its elements and its end are. -/
theorem dotted {pos dot ending : Position} {first : Passage} {others : List Passage}
    {tokens : List Token} {last : Tree}
    (literal : forall part, part ∈ first :: others -> Literal part.tokens part.tree)
    (ends : Literal tokens last) :
    Literal (⟨pos, .opening⟩ :: ((first :: others).flatMap Passage.tokens ++
        ⟨dot, .dot⟩ :: (tokens ++ [⟨ending, .closing⟩])))
      (.pair (.plain pos) first.tree (Node.chain last (others.map Passage.tree))) := by
  rcases ends with ⟨final, finalItem, endsAlike⟩
  rcases row literal with ⟨data, items, sameTokens, sameTexts⟩
  cases data with
  | nil => cases sameTexts
  | cons datum data =>
      rw [← sameTokens]
      refine ⟨_, .dotted rfl items finalItem, ?_⟩
      intro inChain
      simp only [List.map_cons, List.cons.injEq] at sameTexts
      have chains := Node.printAt_chain_congr endsAlike sameTexts.2 true
      rw [Node.printAt, Node.printAt, chains, ← Node.print, ← Node.print, sameTexts.1]

/-- A label is read as a symbol or as a truth value; both are written as the
name. -/
theorem label {token : Token} {name : Bytes} (named : token.lexeme.name? = some name) :
    Literal [token] (.symbol (.plain token.pos) (.named name)) := by
  rcases token with ⟨pos, lexeme⟩
  cases lexeme with
  | symbol label =>
      cases named
      exact ⟨_, .atom rfl, fun _ => rfl⟩
  | word keyword =>
      cases named
      cases keyword with
      | truth value => exact ⟨_, .atom rfl, fun _ => rfl⟩
      | head form => exact ⟨_, .atom rfl, fun _ => rfl⟩
  | _ => cases named

/-- A special form that is written as its word and some parts is a literal if
the parts are. -/
theorem form {form : SpecialForm} {pos word : Position} {inner : List Token} {tree : Tree}
    (parts : List Passage) (ending : Position)
    (arranged : inner = parts.flatMap Passage.tokens ++ [⟨ending, .closing⟩])
    (literal : forall part, part ∈ parts ->
      part.tokens <:+: ⟨pos, .opening⟩ :: ⟨word, .word (.head form)⟩ :: inner ->
        Literal part.tokens part.tree)
    (printed : forall inChain, tree.printAt Reference.spelling inChain =
      Node.printForm Reference.spelling inChain form (parts.map Passage.tree)) :
    Literal (⟨pos, .opening⟩ :: ⟨word, .word (.head form)⟩ :: inner) tree := by
  have named : Literal [⟨word, .word (.head form)⟩] (.symbol (.plain word) (.named form.name)) :=
    label rfl
  rw [arranged] at literal ⊢
  refine @enclosed pos ending (⟨[_], .symbol (.plain word) (.named form.name)⟩ :: parts) tree ?_
    printed
  exact List.forall_mem_cons.2 ⟨fun _ => named, literal⟩

/-- The expressions of a body, if they are parts of a tree that keeps its
loops. -/
theorem body {root : Tree} {whole tokens : List Token} {slot tail : Bool} {init : List Passage}
    {last : Tree} (kept : root.KeepsLoops whole slot)
    (slots : forall part, part ∈ Node.bodySlots tail (init.map Passage.tree ++ [last]) ->
      part ∈ root.parts slot)
    (initLiteral : forall part, part ∈ init ->
      part.tree.KeepsLoops part.tokens false -> Literal part.tokens part.tree)
    (lastLiteral : last.KeepsLoops tokens tail -> Literal tokens last) :
    forall part, part ∈ init ++ [⟨tokens, last⟩] -> part.tokens <:+: whole ->
      Literal part.tokens part.tree := by
  refine List.forall_mem_append.2 ⟨?_, List.forall_mem_singleton.2 ?_⟩
  · intro part member inside
    apply initLiteral part member
    exact kept.within (slots _ (Node.mem_bodySlots_of_init (List.mem_map_of_mem member))) inside
  · intro inside
    exact lastLiteral (kept.within (slots _ Node.last_mem_bodySlots) inside)

/-- The list of some bindings. -/
theorem bindings {opening closing : Position} {bindings : List BindingPart} {whole : List Token}
    (literal : forall binding, binding ∈ bindings -> binding.value.tokens <:+: whole ->
      Literal binding.value.tokens binding.value.tree)
    (inside : (Passage.enclose opening closing (bindings.map BindingPart.asList)).tokens <:+: whole) :
    Literal (Passage.enclose opening closing (bindings.map BindingPart.asList)).tokens
      (Passage.enclose opening closing (bindings.map BindingPart.asList)).tree := by
  refine enclosed (List.forall_mem_map.2 ?_) fun _ => rfl
  intro binding member inList
  have name : Literal [⟨binding.label, .symbol binding.name⟩]
      (.symbol (.plain binding.label) (.named binding.name)) := label rfl
  have arranged : binding.asList.tokens = (Passage.enclose binding.opening binding.closing
      [⟨[⟨binding.label, .symbol binding.name⟩],
        .symbol (.plain binding.label) (.named binding.name)⟩, binding.value]).tokens := by
    simp [BindingPart.asList, BindingPart.tokens, Passage.enclose]
  rw [arranged] at inList ⊢
  refine enclosed (List.forall_mem_cons.2 ⟨fun _ => name, ?_⟩) fun _ => rfl
  refine List.forall_mem_singleton.2 ?_
  intro inBinding
  exact literal binding member (inBinding.trans (inList.trans inside))

/-- The list of some parameters. -/
theorem params (opening closing : Position) (params : List Param) :
    Literal (Passage.enclose opening closing (params.map Param.asSymbol)).tokens
      (Passage.enclose opening closing (params.map Param.asSymbol)).tree :=
  enclosed (List.forall_mem_map.2 fun _ _ _ => label rfl) fun _ => rfl

end Literal

/-! ## Items of code -/

namespace Item

open Node

/-- The tokens of an item whose loops stay loops are a datum with the text of
the item. -/
theorem literal {slot : Slot} {tokens : List Token} {tree : Tree} (item : Item slot tokens tree)
    (kept : tree.KeepsLoops tokens slot.isTail) : Literal tokens tree := by
  -- By induction on the derivation: each rule names the parts that its text is
  -- put together from, and the parts keep their loops since the whole does.
  induction item with
  | atom atom => exact ⟨_, .atom atom, fun _ => rfl⟩
  | @ticked slot pos tokens datum item _ =>
      refine ⟨_, .ticked item, ?_⟩
      intro inChain
      cases slot with
      | data => rfl
      | code tail => exact (printAt_quote _ _ _ datum).symm
  | empty => exact ⟨_, .empty, fun _ => rfl⟩
  | @list slot pos ending first others _ _ literal =>
      refine Literal.enclosed ?_ fun _ => rfl
      intro part member inside
      apply literal part member
      rw [Slot.isTail_element]
      exact kept.within (List.mem_map_of_mem (List.mem_map_of_mem member)) inside
  | @dotted slot pos dot tokens last ending first others _ _ _ partsLiteral lastLiteral =>
      rw [Slot.isTail_element] at lastLiteral
      simp only [Slot.isTail_element] at partsLiteral
      have inFirst := kept.within (.head _) List.infix_rfl
      have inChain := (kept.within (.tail _ (.head _)) List.infix_rfl).of_chain
      have inParts : forall part, part ∈ first :: others -> part.tree.KeepsLoops _ false :=
        List.forall_mem_cons.2 ⟨inFirst, List.forall_mem_map.1 inChain.1⟩
      refine Literal.dotted ?_ ?_
      · intro part member
        apply partsLiteral part member
        exact (inParts part member).restrict
          ((infix_flatMap member).trans (List.infix_append' [_] _ _))
      · apply lastLiteral
        refine inChain.2.restrict ?_
        exact ((List.infix_append' [_] tokens _).trans (List.suffix_append _ _).isInfix).trans
          (List.infix_cons List.infix_rfl)
  | @quote _ _ _ tokens datum ending item _ =>
      refine Literal.form [⟨tokens, datum⟩] ending (by simp) ?_ ?_
      · exact List.forall_mem_singleton.2 fun _ => ⟨_, item, fun _ => rfl⟩
      · intro inChain
        exact printAt_quote _ _ _ datum
  | @emptyBegin _ _ _ ending => exact Literal.form [] ending rfl nofun fun _ => rfl
  | @begin tail pos word tokens last ending init _ _ initLiteral lastLiteral =>
      refine Literal.form (init ++ [⟨tokens, last⟩]) ending (by simp) ?_ ?_
      · exact Literal.body kept (fun _ member => member) initLiteral lastLiteral
      · intro inChain
        rw [List.map_append]
        rfl
  | @define _ _ _ name tokens value ending label named _ valueLiteral =>
      refine Literal.form [⟨[label], .symbol (.plain label.pos) (.named name)⟩, ⟨tokens, value⟩]
        ending (by simp) ?_ ?_
      · refine List.forall_mem_cons.2 ⟨fun _ => Literal.label named, ?_⟩
        refine List.forall_mem_singleton.2 ?_
        intro inside
        exact valueLiteral (kept.within (List.mem_singleton.2 rfl) inside)
      · intro inChain
        exact printAt_define _ _ _ _ _ value
  | @conditional tail pos word testTokens test consequentTokens consequent alternativeTokens
      alternative ending _ _ _ testLiteral consequentLiteral alternativeLiteral =>
      refine Literal.form [⟨testTokens, test⟩, ⟨consequentTokens, consequent⟩,
        ⟨alternativeTokens, alternative⟩] ending (by simp) ?_ ?_
      · simp only [List.forall_mem_cons]
        refine ⟨?_, ?_, ?_, nofun⟩
        · intro inside
          exact testLiteral (kept.within (.head _) inside)
        · intro inside
          exact consequentLiteral (kept.within (.tail _ (.head _)) inside)
        · intro inside
          exact alternativeLiteral (kept.within (.tail _ (.tail _ (.head _))) inside)
      · intro inChain
        exact printAt_conditional _ _ _ test consequent alternative
  | @scope tail pos word kind opening closing tokens last ending bindings init _ _ _
      bindingsLiteral initLiteral lastLiteral =>
      have inBody := Literal.body kept (fun _ => List.mem_append_right _) initLiteral lastLiteral
      have inBinding := fun binding member inside =>
        bindingsLiteral binding member (kept.within (List.mem_append_left _
          (List.mem_map_of_mem (List.mem_map_of_mem member))) inside)
      refine Literal.form (.enclose opening closing (bindings.map BindingPart.asList) ::
        (init ++ [⟨tokens, last⟩])) ending ?_
        (List.forall_mem_cons.2 ⟨Literal.bindings inBinding, inBody⟩) ?_
      · simp [Passage.enclose, flatMap_tokens_asList]
      · intro inChain
        rw [kept.kind, List.map_cons, List.map_append]
        apply printAt_scope
        simp [BindingPart.asList, BindingPart.pair, print, printAt, place]
  | @lambda tail pos word label name opening closing tokens last ending params init labelled _ _ _
      initLiteral lastLiteral =>
      have inBody := Literal.body kept (fun _ member => member) initLiteral lastLiteral
      have inParams := Literal.params opening closing params
      have alike : ((params.map Param.asSymbol).map Passage.tree).map (print Reference.spelling) =
          (params.map fun param => Reference.named param.name).map Reference.spelling := by
        rw [List.map_map, List.map_map, List.map_map]
        rfl
      cases labelled with
      | absent =>
          refine Literal.form (.enclose opening closing (params.map Param.asSymbol) ::
            (init ++ [⟨tokens, last⟩])) ending ?_
            (List.forall_mem_cons.2 ⟨fun _ => inParams, inBody⟩) ?_
          · simp [Passage.enclose, flatMap_tokens_asSymbol]
          · intro inChain
            rw [List.map_cons, List.map_append]
            exact printAt_lambda _ _ _ alike _ _
      | @present token name named =>
          refine Literal.form (⟨[token], .symbol (.plain token.pos) (.named name)⟩ ::
            .enclose opening closing (params.map Param.asSymbol) :: (init ++ [⟨tokens, last⟩]))
            ending ?_ (List.forall_mem_cons.2 ⟨fun _ => Literal.label named,
              List.forall_mem_cons.2 ⟨fun _ => inParams, inBody⟩⟩) ?_
          · simp [Passage.enclose, flatMap_tokens_asSymbol]
          · intro inChain
            rw [List.map_cons, List.map_cons, List.map_append]
            exact printAt_named_lambda _ _ _ alike _ _ (.named name) _
  | @recur _ _ _ args _ argsLiteral =>
      refine Literal.form args _ rfl ?_ fun _ => rfl
      intro part member inside
      apply argsLiteral part member
      exact kept.within (List.mem_map_of_mem (List.mem_map_of_mem member)) inside

end Item

end Grammar

/-! ## Reading the rest of a text item by item -/

namespace SymbolTable

theorem length_readItem_lt {table : SymbolTable} {slot : Slot} {cursor : Cursor}
    {node : Node SymbolId} (done : (table.readItem slot cursor).outcome = .ok node) :
    (table.readItem slot cursor).cursor.rest.length < cursor.rest.length := by
  rw [readItem] at done
  cases outcome : (Reader.read slot cursor).outcome with
  | error fault =>
      rw [outcome] at done
      cases done
  | ok tree => exact Reader.length_resume_lt outcome

/-- A tree keeps its names while the table grows. -/
theorem map_nameOf_of_isPrefix {table later : SymbolTable} (grown : table.names <+: later.names)
    {node : Node SymbolId} (given : forall id, id ∈ node.symbols -> id < table.size) :
    node.map later.nameOf = node.map table.nameOf :=
  Node.map_congr fun id occurs => nameOf_of_isPrefix grown (given id occurs)

end SymbolTable

namespace Session

/-- Reads one item after the other until only blank text is left, or up to the
first fault. -/
def readRest (session : Session) (slot : Slot) :
    Except Fault (List (Node SymbolId)) × Session :=
  let here := session.skipBlank
  if here.cursor.atEnd then
    (.ok [], here)
  else
    match _done : (here.readItem slot).1 with
    | .error fault => (.error fault, (here.readItem slot).2)
    | .ok node =>
        let later := (here.readItem slot).2.readRest slot
        (later.1.map (node :: ·), later.2)
termination_by session.cursor.rest.length
decreasing_by
  exact Nat.lt_of_lt_of_le (SymbolTable.length_readItem_lt _done) (Cursor.length_skipBlank_le _)

theorem readRest_of_atEnd {session : Session} {slot : Slot}
    (ended : session.cursor.skipBlank.atEnd = true) :
    session.readRest slot = (.ok [], session.skipBlank) := by
  rw [readRest]
  exact if_pos ended

/-- An item of the text is read behind the blanks in front of it. -/
theorem readItem_of_item {session : Session} {slot : Slot} {tokens : List Token} {tree : Tree}
    {ending : Cursor} (scanned : session.cursor.Scans tokens ending) (item : Item slot tokens tree) :
    let filled := session.table.insertAll tree.names
    session.skipBlank.readItem slot =
      (.ok (tree.map filled.resolve), { session with table := filled, cursor := ending }) := by
  intro filled
  have fromBlank := (Cursor.scans_skipBlank item.tokens_ne_nil).2 scanned
  simp only [readItem, skipBlank, SymbolTable.readItem_of_item fromBlank item, adopt]
  rfl

/-- An item of the text is read, and the reading goes on behind it. -/
theorem readRest_of_item {session : Session} {slot : Slot} {tokens : List Token} {tree : Tree}
    {ending : Cursor} (scanned : session.cursor.Scans tokens ending) (item : Item slot tokens tree) :
    let filled := session.table.insertAll tree.names
    let later := readRest { session with table := filled, cursor := ending } slot
    session.readRest slot = (later.1.map (tree.map filled.resolve :: ·), later.2) := by
  intro filled later
  have more : ¬ session.skipBlank.cursor.atEnd = true := scanned.not_atEnd item.tokens_ne_nil
  have read := readItem_of_item scanned item
  rw [readRest]
  simp only [if_neg more]
  split
  · next failed =>
      rw [read] at failed
      cases failed
  · next done =>
      rw [read] at done
      cases done
      rw [read]

/-- A text that consists of items is read to its end.  Under the final table
the items have the names with which they were written. -/
theorem readRest_of_parts {session : Session} {slot : Slot} {parts : List Passage}
    {ending : Cursor} (ready : session.table.ready = true)
    (items : forall part, part ∈ parts -> Item slot part.tokens part.tree)
    (scanned : session.cursor.Scans (parts.flatMap Passage.tokens) ending)
    (ended : ending.skipBlank.atEnd = true) :
    let filled := session.table.insertAll (parts.flatMap fun part => part.tree.names)
    Exists fun nodes =>
      session.readRest slot =
        (.ok nodes, { session with table := filled, cursor := ending.skipBlank }) ∧
      nodes.map (Node.map filled.nameOf) =
        parts.map fun part => part.tree.map Reference.spelling := by
  induction parts generalizing session with
  | nil =>
      cases scanned
      exact ⟨[], readRest_of_atEnd ended, rfl⟩
  | cons part parts inductionHypothesis =>
      rcases List.forall_mem_cons.1 items with ⟨item, others⟩
      rw [List.flatMap_cons] at scanned
      rcases scanned.of_append with ⟨middle, first, later⟩
      have stepped := readRest_of_item first item
      have filledReady : (session.table.insertAll part.tree.names).ready = true :=
        (SymbolTable.ready_insertAll _ _).trans ready
      rcases @inductionHypothesis
        { session with table := session.table.insertAll part.tree.names, cursor := middle }
        filledReady others later with ⟨nodes, rest, named⟩
      have held := SymbolTable.holds_insertAll_names session.table part.tree
      refine ⟨part.tree.map (session.table.insertAll part.tree.names).resolve :: nodes, ?_, ?_⟩
      · rw [stepped, rest, List.flatMap_cons, SymbolTable.insertAll_append]
        rfl
      · rw [List.flatMap_cons, SymbolTable.insertAll_append, List.map_cons, List.map_cons, named]
        -- The table has grown since the first item, whose ids keep their names.
        have same := SymbolTable.map_nameOf_of_isPrefix
          (SymbolTable.names_isPrefix_insertAll _ (parts.flatMap fun part => part.tree.names))
          (held.resolve_lt_size filledReady)
        rw [same, SymbolTable.map_nameOf_resolve held filledReady]

end Session

/-! ## Programs as data -/

namespace SymbolTable

/-- A program is printed in the same way whether it is read as code or as data,
if its loops stay loops.  Where the text is accepted as a program, reading it
item by item as data comes to its end without a fault, in any ready table, and
gives as many data as the program has forms; each datum has the text of its
form. -/
theorem parseForms_as_data {table other : SymbolTable} {text : Bytes}
    {result : Interned (List (Node SymbolId))} {forms : List (Node SymbolId)}
    (parsed : table.parseForms text = .ok result) (done : result.outcome = .ok forms)
    (kept : forall form, form ∈ forms -> form.KeepsLoops (Cursor.ofText text).tokens.1 false)
    (ready : other.ready = true) :
    Exists fun data => Exists fun last =>
      (Session.start other 1 0 text).readRest .data = (.ok data, last) ∧
      last.cursor.atEnd = true ∧ last.fault = none ∧ data.length = forms.length ∧
        data.map (Node.print last.table.nameOf) = forms.map (Node.print result.table.nameOf) := by
  rcases parts_of_parseForms parsed done with
    ⟨tableReady, parts, ending, nonempty, items, scanned, ended⟩
  have expected := parseForms_of_parts tableReady nonempty items scanned ended
  cases parsed.symm.trans expected
  cases done
  have formsNamed := map_nameOf_forms tableReady parts
  have literals : forall part, part ∈ parts -> Literal part.tokens part.tree := by
    intro part member
    have whole : part.tokens <:+: (Cursor.ofText text).tokens.1 :=
      (infix_flatMap member).trans (Cursor.isPrefix_tokens_iff.2 ⟨_, scanned⟩).isInfix
    exact (items part member).literal ((kept _ (List.mem_map_of_mem member)).of_map.restrict whole)
  rcases Literal.row literals with ⟨data, dataItems, sameTokens, sameTexts⟩
  rw [← sameTokens] at scanned
  rcases @Session.readRest_of_parts (Session.start other 1 0 text) .data data ending ready dataItems
    scanned ended with ⟨nodes, read, named⟩
  have alike := (map_print_eq named).trans (sameTexts.trans (map_print_eq formsNamed).symm)
  refine ⟨nodes, _, read, ended, rfl, ?_, alike⟩
  have lengths := congrArg List.length alike
  rw [List.length_map, List.length_map] at lengths
  exact lengths

/-- A loop that stays a loop, with a tick that is printed as a word. -/
theorem parseForms_as_data_loop :
    Exists fun result => Exists fun forms => Exists fun data => Exists fun last =>
      empty.prepare.parseForms (Bytes.ofText "(loop () (recur 'x))") = .ok result ∧
      result.outcome = .ok forms ∧
      (Session.start empty.prepare 1 0 (Bytes.ofText "(loop () (recur 'x))")).readRest .data =
        (.ok data, last) ∧
      data.map (Node.print last.table.nameOf) = forms.map (Node.print result.table.nameOf) ∧
      forms.map (Node.print result.table.nameOf) =
        [Bytes.ofText "(loop () (recur (quote x)))"] := by
  have scanned : (Cursor.ofText (Bytes.ofText "(loop () (recur 'x))")).Scans _ ⟨⟨1, 20, 20⟩, []⟩ :=
    .cons rfl (.cons rfl (.cons rfl (.cons rfl (.cons rfl (.cons rfl (.cons rfl (.cons rfl
      (.cons rfl (.cons rfl (.nil _))))))))))
  have quoted : Item (.code false) _ _ :=
    @Item.ticked (.code false) ⟨1, 16, 16⟩ [⟨⟨1, 17, 17⟩, .symbol (Bytes.ofText "x")⟩] _ (.atom rfl)
  have again : Item (.code true) _ _ :=
    @Item.recur ⟨1, 9, 9⟩ ⟨1, 10, 10⟩ ⟨1, 18, 18⟩ [⟨_, _⟩] (List.forall_mem_singleton.2 quoted)
  have loop : Item (.code false) _ _ :=
    @Item.scope false ⟨1, 0, 0⟩ ⟨1, 1, 1⟩ .loop ⟨1, 6, 6⟩ ⟨1, 7, 7⟩ _ _ ⟨1, 19, 19⟩ [] [] nofun
      nofun again
  have single : forall part, part ∈ [Passage.mk _ _] -> Item (.code false) part.tokens part.tree :=
    List.forall_mem_singleton.2 loop
  have ready : empty.prepare.ready = true := ready_prepare empty
  have parsed := parseForms_of_parts ready (List.cons_ne_nil _ _) single scanned rfl
  have keeps (tokens : List Token) (name : SymbolId) : Node.KeepsLoops tokens false
      (.scope ⟨⟨1, 0, 0⟩, false⟩ .loop [] [.recur ⟨⟨1, 9, 9⟩, true⟩
        [.quote (.plain ⟨1, 16, 16⟩) (.symbol (.plain ⟨1, 17, 17⟩) name)]]) := by
    refine .of_parts nofun fun slot part member => ?_
    cases List.mem_singleton.1 member
    refine .of_parts nofun fun slot part member => ?_
    cases List.mem_singleton.1 member
    refine .of_parts nofun fun slot part member => ?_
    cases List.mem_singleton.1 member
    exact .of_parts nofun nofun
  rcases parseForms_as_data parsed rfl (List.forall_mem_singleton.2 (keeps _ _)) ready with
    ⟨data, last, read, _, _, _, alike⟩
  exact ⟨_, _, data, last, parsed, rfl, read, alike, by decide +kernel⟩

end SymbolTable

end TailLisp

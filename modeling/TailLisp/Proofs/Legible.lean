import TailLisp.Proofs.Interning
import TailLisp.Proofs.Spelling

namespace TailLisp

/-!
Legible trees.

Which trees can be read back is said by `Legible`.  Its rules follow those of
the grammar but speak about trees alone: symbols are names that spell
themselves, the tail flags are those of the slots, and places are left out.
Chains of pairs are taken apart as far as they go, since the printer writes a
chain as one dotted list.

Every item that was read from a text stands for a legible tree
(`Grammar.Item.legible`).
-/

open Grammar

namespace Node

variable {Symbol : Type}

/-! ## Trees by their names -/

/-- The tree as the printer sees it: symbols by name, and without places. -/
def written (tree : Tree) : Node Bytes :=
  (tree.map Reference.spelling).unplaced

theorem written_list (mark : Mark) (first : Tree) (others : List Tree) :
    written (list mark first others) =
      list ⟨.start, mark.tail⟩ first.written (others.map written) := by
  simp [written, unplaced, map, remark]

theorem written_begin (mark : Mark) (body : List Tree) :
    written (begin mark body) = begin ⟨.start, mark.tail⟩ (body.map written) := by
  simp [written, unplaced, map, remark]

theorem written_scope (mark : Mark) (kind : ScopeKind) (bindings : List (Reference × Tree))
    (body : List Tree) :
    written (scope mark kind bindings body) =
      scope ⟨.start, mark.tail⟩ kind
        (bindings.map fun binding => (binding.1.spelling, binding.2.written))
        (body.map written) := by
  simp [written, unplaced, map, remark]

theorem written_lambda (mark : Mark) (name : Option Bytes) (params : List Reference)
    (body : List Tree) :
    written (lambda mark name params body) =
      lambda ⟨.start, mark.tail⟩ name (params.map Reference.spelling) (body.map written) := by
  simp [written, unplaced, map, remark]

theorem written_recur (mark : Mark) (args : List Tree) :
    written (recur mark args) = recur ⟨.start, mark.tail⟩ (args.map written) := by
  simp [written, unplaced, map, remark]

theorem pos_written (tree : Tree) : tree.written.pos = .start := by
  cases tree <;> rfl

theorem written_chain (ending : Tree) (items : List Tree) :
    (chain ending items).written = chain ending.written (items.map written) := by
  induction items with
  | nil => rfl
  | cons item items inductionHypothesis =>
      rw [List.map_cons, chain, chain, ← inductionHypothesis, pos_written]
      rfl

/-- What a tree can end in does not depend on names and places. -/
theorem reachesRecur_written (tree : Node Reference) :
    tree.written.reachesRecur = tree.reachesRecur := by
  rw [written, unplaced, reachesRecur_remark, reachesRecur_map]

/-! ## Chains of pairs -/

def isPair : Node Symbol -> Bool
  | pair _ _ _ => true
  | _ => false

theorem chain_append (ending : Node Symbol) (items others : List (Node Symbol)) :
    chain ending (items ++ others) = chain (chain ending others) items := by
  induction items with
  | nil => rfl
  | cons item items inductionHypothesis =>
      rw [List.cons_append, chain, chain, inductionHypothesis]

/-- A chain is printed as the row of its elements, a dot and its end. -/
theorem printAt_chain (name : Symbol -> Bytes) {ending : Node Symbol}
    (single : ending.isPair = false) (items : List (Node Symbol)) :
    (chain ending items).printAt name true =
      (items.flatMap fun item => Bytes.ofText " " ++ item.print name) ++
        (Bytes.ofText " . " ++ ending.print name ++ [ByteClass.closeParen]) := by
  induction items with
  | nil =>
      cases ending with
      | pair mark car cdr => cases single
      | _ => rfl
  | cons item items inductionHypothesis =>
      rw [chain, printAt, inductionHypothesis, List.flatMap_cons, if_pos rfl, print, print]
      simp only [List.append_assoc]

/-- A chain of pairs is printed as one dotted list. -/
theorem print_dotted (name : Symbol -> Bytes) (mark : Mark) (first : Node Symbol)
    {last : Node Symbol} (single : last.isPair = false) (others : List (Node Symbol)) :
    (pair mark first (chain last others)).print name =
      parenthesized (first.print name ++ (printSeries name others ++
        (Bytes.ofText " " ++ (['.'.toUInt8] ++ (Bytes.ofText " " ++ last.print name))))) := by
  rw [print, printAt, printAt_chain name single, printSeries_eq, parenthesized]
  simp only [List.append_assoc, List.cons_append]
  rfl

end Node

/-- A name that can be written where the grammar asks for one: it spells a
symbol or a keyword. -/
def IsLabel (name : Bytes) : Prop :=
  Exists fun lexeme => Lexes name lexeme ∧ lexeme.name? = some name

/-- Whether a tree may stand first in a plain list of the slot.  In code it may
not be the word of a special form. -/
def Slot.Leads : Slot -> Node Bytes -> Prop
  | data, _ => True
  | code _, node => forall mark form, node ≠ .symbol mark (SpecialForm.name form)

/-- The tree can be printed in the slot and read back. -/
inductive Legible : Slot -> Node Bytes -> Prop
  | integer {slot value} : Legible slot (.integer (.plain .start) value)
  | char {slot value} : Legible slot (.char (.plain .start) value)
  | string {slot contents} : Legible slot (.string (.plain .start) contents)
  | boolean {slot value} : Legible slot (.boolean (.plain .start) value)
  | symbol {slot name} :
      Lexes name (.symbol name) ->
      Legible slot (.symbol (.plain .start) name)
  | word {slot} {form : SpecialForm} : Legible slot (.symbol (.plain .start) form.name)
  | empty {slot} : Legible slot (.empty (.plain .start))
  | list {slot first others} :
      slot.Leads first ->
      (forall item, item ∈ first :: others -> Legible slot.element item) ->
      Legible slot (.list ⟨.start, slot.isTail⟩ first others)
  /-- A chain of pairs.  Its end is not a pair, or it would go on. -/
  | dotted {slot first others last} :
      slot.Leads first ->
      (forall item, item ∈ first :: others -> Legible slot.element item) ->
      Legible slot.element last ->
      last.isPair = false ->
      Legible slot (.pair (.plain .start) first (Node.chain last others))
  | quote {tail datum} :
      Legible .data datum ->
      Legible (.code tail) (.quote (.plain .start) datum)
  | emptyBegin {tail} : Legible (.code tail) (.begin ⟨.start, tail⟩ [])
  | begin {tail init last} :
      (forall item, item ∈ init -> Legible (.code false) item) ->
      Legible (.code tail) last ->
      Legible (.code tail) (.begin ⟨.start, tail⟩ (init ++ [last]))
  | define {tail name value} :
      IsLabel name ->
      Legible (.code false) value ->
      Legible (.code tail) (.define (.plain .start) name value)
  | conditional {tail test consequent alternative} :
      Legible (.code false) test ->
      Legible (.code tail) consequent ->
      Legible (.code tail) alternative ->
      Legible (.code tail) (.conditional ⟨.start, tail⟩ test consequent alternative)
  | scope {tail kind init last} {bindings : List (Bytes × Node Bytes)} :
      (kind = .loop -> last.reachesRecur = true) ->
      (forall binding, binding ∈ bindings -> Lexes binding.1 (.symbol binding.1)) ->
      (forall binding, binding ∈ bindings -> Legible (.code false) binding.2) ->
      (forall item, item ∈ init -> Legible (.code false) item) ->
      Legible (.code true) last ->
      Legible (.code tail) (.scope ⟨.start, tail⟩ kind bindings (init ++ [last]))
  | lambda {tail name init last} {params : List Bytes} :
      (forall label, name = some label -> IsLabel label) ->
      (forall param, param ∈ params -> Lexes param (.symbol param)) ->
      params.Nodup ->
      (forall item, item ∈ init -> Legible (.code false) item) ->
      Legible (.code true) last ->
      Legible (.code tail) (.lambda (.plain .start) name params (init ++ [last]))
  | recur {args} :
      (forall item, item ∈ args -> Legible (.code false) item) ->
      Legible (.code true) (.recur ⟨.start, true⟩ args)

/-! ## Items are legible -/

namespace Slot

theorem element_element (slot : Slot) : slot.element.element = slot.element := by
  cases slot <;> rfl

end Slot

namespace Legible

theorem pos_eq {slot : Slot} {node : Node Bytes} (legible : Legible slot node) :
    node.pos = .start := by
  cases legible <;> rfl

theorem exists_dotted {slot : Slot} {node : Node Bytes} (legible : Legible slot node)
    (isPair : node.isPair = true) :
    Exists fun first => Exists fun others => Exists fun last =>
      node = .pair (.plain .start) first (Node.chain last others) ∧
      (forall item, item ∈ first :: others -> Legible slot.element item) ∧
        Legible slot.element last ∧ last.isPair = false := by
  cases legible with
  | dotted _ legible ending single => exact ⟨_, _, _, rfl, legible, ending, single⟩
  | _ => cases isPair

/-- A chain of pairs whose end may be another one. -/
theorem chain {slot : Slot} {first last : Node Bytes} {others : List (Node Bytes)}
    (leads : slot.Leads first)
    (legible : forall item, item ∈ first :: others -> Legible slot.element item)
    (ending : Legible slot.element last) :
    Legible slot (.pair (.plain .start) first (Node.chain last others)) := by
  by_cases isPair : last.isPair = true
  · rcases ending.exists_dotted isPair with
      ⟨second, more, final, same, moreLegible, finalLegible, single⟩
    rw [Slot.element_element] at moreLegible finalLegible
    -- The printer goes on in the same list, so the two chains are one.
    have joined : Node.chain last others = Node.chain final (others ++ second :: more) := by
      rw [Node.chain_append, Node.chain, (moreLegible second (by simp)).pos_eq, same]
    rw [joined]
    refine .dotted leads ?_ finalLegible single
    rw [← List.cons_append]
    exact List.forall_mem_append.2 ⟨legible, moreLegible⟩
  · exact .dotted leads legible ending (Bool.eq_false_iff.2 isPair)

end Legible

namespace Lexes

theorem unique {text : Bytes} {lexeme other : Lexeme} (first : Lexes text lexeme)
    (second : Lexes text other) : lexeme = other := by
  have left := Cursor.next_of_lexes first .start Boundary.nil
  have right := Cursor.next_of_lexes second .start Boundary.nil
  rw [left, Prod.mk.injEq, Scan.token.injEq, Token.mk.injEq] at right
  exact right.1.2

end Lexes

namespace Grammar.Item

theorem legible_atom {slot : Slot} {token : Token} {tree : Tree}
    (atom : token.atom? = some tree) (found : Cursor.Finds token) : Legible slot tree.written := by
  rcases token with ⟨pos, lexeme⟩
  cases lexeme with
  | integer value =>
      cases atom
      exact .integer
  | char value =>
      cases atom
      exact .char
  | string raw =>
      rcases Option.map_eq_some_iff.1 atom with ⟨contents, _, same⟩
      rw [← same]
      exact .string
  | word keyword =>
      cases keyword with
      | truth value =>
          cases atom
          exact .boolean
      | head form =>
          cases atom
          exact .word
  | symbol name =>
      cases atom
      exact .symbol (found.lexes rfl)
  | _ => cases atom

theorem name_of_atom {token : Token} {tree : Tree} {mark : Mark} {name : Bytes}
    (atom : token.atom? = some tree) (isSymbol : tree.written = .symbol mark name) :
    token.lexeme.name? = some name := by
  rcases token with ⟨pos, lexeme⟩
  cases lexeme with
  | word keyword =>
      cases keyword with
      | truth value =>
          cases atom
          cases isSymbol
      | head form =>
          cases atom
          cases isSymbol
          rfl
  | symbol name =>
      cases atom
      cases isSymbol
      rfl
  | string raw =>
      rcases Option.map_eq_some_iff.1 atom with ⟨contents, _, isString⟩
      rw [← isString] at isSymbol
      cases isSymbol
  | integer value =>
      cases atom
      cases isSymbol
  | char value =>
      cases atom
      cases isSymbol
  | _ => cases atom

/-- What may begin a plain list is no word of a special form. -/
theorem leads_of_admits {slot : Slot} {tokens : List Token} {tree : Tree}
    (item : Item slot.element tokens tree) (admitted : slot.admits tokens = true)
    (found : forall token, token ∈ tokens -> Cursor.Finds token) : slot.Leads tree.written := by
  cases slot with
  | data => trivial
  | code tail =>
      intro mark form isSymbol
      cases item with
      | @atom _ token _ atom =>
          have isFound := found token (List.mem_singleton.2 rfl)
          have spelled := isFound.lexes (name_of_atom atom isSymbol)
          have isWord := spelled.unique (Lexes.word (.head form))
          rcases token with ⟨pos, lexeme⟩
          cases isWord
          cases admitted
      | _ => cases isSymbol

/-- An item that was read from a text stands for a legible tree. -/
theorem legible {slot : Slot} {tokens : List Token} {tree : Tree} (item : Item slot tokens tree)
    (found : forall token, token ∈ tokens -> Cursor.Finds token) : Legible slot tree.written := by
  induction item with
  | atom atom => exact legible_atom atom (found _ (List.mem_singleton.2 rfl))
  | @ticked slot pos tokens datum _ inductionHypothesis =>
      have legible := inductionHypothesis (List.forall_mem_cons.1 found).2
      cases slot with
      | data =>
          apply @Legible.list .data _ [datum.written] trivial
          exact List.forall_mem_cons.2 ⟨@Legible.word _ .quote, List.forall_mem_singleton.2 legible⟩
      | code tail => exact .quote legible
  | empty => exact .empty
  | @list slot pos ending first others admitted items inductionHypothesis =>
      simp only [List.forall_mem_cons, List.forall_mem_append, List.flatMap_cons,
        List.forall_mem_flatMap] at found items inductionHypothesis
      rcases found with ⟨_, ⟨inFirst, inOthers⟩, _⟩
      have leads := leads_of_admits items.1 admitted inFirst
      have legible := fun part member => inductionHypothesis.2 part member (inOthers part member)
      rw [Node.written_list]
      exact .list leads (List.forall_mem_cons.2 ⟨inductionHypothesis.1 inFirst,
        List.forall_mem_map.2 (List.forall_mem_map.2 legible)⟩)
  | @dotted slot pos dot tokens last ending first others admitted items _ inductionHypothesis
      lastLegible =>
      simp only [List.forall_mem_cons, List.forall_mem_append, List.flatMap_cons,
        List.forall_mem_flatMap] at found items inductionHypothesis
      rcases found with ⟨_, ⟨inFirst, inOthers⟩, _, inLast, _⟩
      have leads := leads_of_admits items.1 admitted inFirst
      have legible := fun part member => inductionHypothesis.2 part member (inOthers part member)
      have whole := Legible.chain leads (List.forall_mem_cons.2 ⟨inductionHypothesis.1 inFirst,
        List.forall_mem_map.2 (List.forall_mem_map.2 legible)⟩) (lastLegible inLast)
      rw [← Node.written_chain] at whole
      exact whole
  | quote _ inductionHypothesis =>
      simp only [List.forall_mem_cons, List.forall_mem_append] at found
      exact .quote (inductionHypothesis found.2.2.1)
  | emptyBegin => exact .emptyBegin
  | begin _ _ initLegible lastLegible =>
      simp only [List.forall_mem_cons, List.forall_mem_append, List.forall_mem_flatMap] at found
      rcases found with ⟨_, _, inInit, inLast, _⟩
      have legible := fun part member => initLegible part member (inInit part member)
      rw [Node.written_begin, List.map_append, List.map_singleton]
      exact .begin (List.forall_mem_map.2 (List.forall_mem_map.2 legible)) (lastLegible inLast)
  | @define tail pos word name tokens value ending label named _ inductionHypothesis =>
      simp only [List.forall_mem_cons, List.forall_mem_append] at found
      rcases found with ⟨_, _, isFound, inValue, _⟩
      exact .define ⟨label.lexeme, isFound.lexes named, named⟩ (inductionHypothesis inValue)
  | conditional _ _ _ testLegible consequentLegible alternativeLegible =>
      simp only [List.forall_mem_cons, List.forall_mem_append] at found
      rcases found with ⟨_, _, inTest, inConsequent, inAlternative, _⟩
      exact .conditional (testLegible inTest) (consequentLegible inConsequent)
        (alternativeLegible inAlternative)
  | @scope tail pos word kind opening closing tokens last ending bindings init _ _ _ bindingsLegible
      initLegible lastLegible =>
      simp only [List.forall_mem_cons, List.forall_mem_append, List.forall_mem_flatMap,
        BindingPart.tokens] at found
      rcases found with ⟨_, _, _, inBindings, _, inInit, inLast, _⟩
      have legible := fun part member => initLegible part member (inInit part member)
      have names := fun binding member => (inBindings binding member).2.1.lexes rfl
      have values := fun binding member =>
        bindingsLegible binding member (inBindings binding member).2.2.1
      rw [Node.written_scope, List.map_append, List.map_singleton]
      refine .scope ?_ (List.forall_mem_map.2 (List.forall_mem_map.2 names))
        (List.forall_mem_map.2 (List.forall_mem_map.2 values))
        (List.forall_mem_map.2 (List.forall_mem_map.2 legible)) (lastLegible inLast)
      intro isLoop
      rw [Node.reachesRecur_written]
      by_contra leaves
      rw [if_neg leaves] at isLoop
      cases isLoop
  | @lambda tail pos word label name opening closing tokens last ending params init isLabel distinct
      _ _ initLegible lastLegible =>
      simp only [List.forall_mem_cons, List.forall_mem_append, List.forall_mem_flatMap,
        List.forall_mem_map] at found
      rcases found with ⟨_, _, inLabel, _, inParams, _, inInit, inLast, _⟩
      have legible := fun part member => initLegible part member (inInit part member)
      have names := fun (param : Param) member => (inParams param member).lexes rfl
      have labelled : forall given, name = some given -> IsLabel given := by
        intro given same
        cases isLabel with
        | absent => cases same
        | @present token _ named =>
            cases same
            exact ⟨token.lexeme, (inLabel token (List.mem_singleton.2 rfl)).lexes named, named⟩
      rw [Node.written_lambda, List.map_append, List.map_singleton, List.map_map]
      exact .lambda labelled (List.forall_mem_map.2 names) distinct
        (List.forall_mem_map.2 (List.forall_mem_map.2 legible)) (lastLegible inLast)
  | recur _ inductionHypothesis =>
      simp only [List.forall_mem_cons, List.forall_mem_append, List.forall_mem_flatMap] at found
      rcases found with ⟨_, _, inArgs, _⟩
      have legible := fun part member => inductionHypothesis part member (inArgs part member)
      rw [Node.written_recur]
      exact .recur (List.forall_mem_map.2 (List.forall_mem_map.2 legible))

end Grammar.Item

end TailLisp

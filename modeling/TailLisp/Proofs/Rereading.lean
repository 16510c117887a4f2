import TailLisp.Proofs.Legible
import TailLisp.Proofs.Printing

namespace TailLisp

/-!
Reading printed trees.

Every legible tree is printed as an item of its slot that stands for the tree
(`Legible.spells`).  The argument goes form by form: the text of a form spells
its word and its parts in the order in which the grammar asks for them, so the
rule that made the tree legible is matched by a rule of the grammar.
-/

open Grammar

/-- The tokens are an item of the slot that stands for the tree. -/
def Reads (slot : Slot) (node : Node Bytes) (tokens : List Token) : Prop :=
  Exists fun tree => Item slot tokens tree ∧ tree.written = node

namespace Reads

theorem ne_nil (slot : Slot) (node : Node Bytes) (tokens : List Token)
    (reads : Reads slot node tokens) : tokens ≠ [] := by
  rcases reads with ⟨tree, item, _⟩
  exact item.tokens_ne_nil

theorem of_item {slot : Slot} {node : Node Bytes} {tokens derived : List Token} {tree : Tree}
    (item : Item slot derived tree) (same : tokens = derived) (written : tree.written = node) :
    Reads slot node tokens :=
  ⟨tree, same ▸ item, written⟩

/-- A row of items, as the rules of the grammar take them. -/
theorem parts_of_row {slot : Slot} {items : List (Node Bytes)} {tokens : List Token}
    (row : Row (Reads slot) items tokens) :
    Exists fun parts : List Passage =>
      (forall part, part ∈ parts -> Item slot part.tokens part.tree) ∧
        items = parts.map (fun part => part.tree.written) ∧
          tokens = parts.flatMap Passage.tokens := by
  apply row.exists_pieces
  rintro node tokens ⟨tree, item, written⟩
  exact ⟨⟨tokens, tree⟩, item, written.symm, rfl⟩

end Reads

/-- The tokens are a binding of the name to the tree. -/
def ReadsBinding (binding : Bytes × Node Bytes) (tokens : List Token) : Prop :=
  Exists fun part : BindingPart =>
    Item (.code false) part.value.tokens part.value.tree ∧
      binding = (part.name, part.value.tree.written) ∧ tokens = part.tokens

namespace ReadsBinding

theorem ne_nil (binding : Bytes × Node Bytes) (tokens : List Token)
    (reads : ReadsBinding binding tokens) : tokens ≠ [] := by
  rcases reads with ⟨part, _, _, same⟩
  rw [same]
  exact List.cons_ne_nil _ _

theorem parts_of_row {bindings : List (Bytes × Node Bytes)} {tokens : List Token}
    (row : Row ReadsBinding bindings tokens) :
    Exists fun parts : List BindingPart =>
      (forall binding, binding ∈ parts ->
        Item (.code false) binding.value.tokens binding.value.tree) ∧
        bindings = parts.map (fun binding => (binding.name, binding.value.tree.written)) ∧
          tokens = parts.flatMap BindingPart.tokens :=
  row.exists_pieces fun _ _ reads => reads

end ReadsBinding

/-- The token is the parameter. -/
def ReadsParam (name : Bytes) (tokens : List Token) : Prop :=
  Exists fun param : Param => name = param.name ∧ tokens = [param.token]

namespace ReadsParam

theorem ne_nil (name : Bytes) (tokens : List Token) (reads : ReadsParam name tokens) :
    tokens ≠ [] := by
  rcases reads with ⟨param, _, same⟩
  rw [same]
  exact List.cons_ne_nil _ _

theorem params_of_row {names : List Bytes} {tokens : List Token}
    (row : Row ReadsParam names tokens) :
    Exists fun params : List Param =>
      names = params.map Param.name ∧ tokens = params.map Param.token := by
  have pieces := @Row.exists_pieces _ _ _ (fun _ => True) Param.name (fun param => [param.token])
    (fun name tokens reads => reads.imp fun param same => ⟨trivial, same⟩) _ _ row
  rcases pieces with ⟨params, _, sameNames, sameTokens⟩
  rw [← List.map_eq_flatMap] at sameTokens
  exact ⟨params, sameNames, sameTokens⟩

end ReadsParam

/-- A tree that is no word of a special form is not taken for one. -/
theorem Grammar.Item.admits_of_leads {slot : Slot} {tokens : List Token} {tree : Tree}
    (item : Item slot.element tokens tree) (leads : slot.Leads tree.written) :
    slot.admits tokens = true := by
  cases slot with
  | data => rfl
  | code tail =>
      rcases tokens with _ | ⟨⟨pos, lexeme⟩, rest⟩
      · rfl
      · cases lexeme with
        | word keyword =>
            cases keyword with
            | truth value => rfl
            | head form =>
                cases item with
                | atom atom =>
                    cases atom
                    exact (leads _ form rfl).elim
        | _ => rfl

theorem Boundary.printSeries (items : List (Node Bytes)) :
    Boundary (Node.printSeries id items) := by
  rw [Node.printSeries_eq]
  exact Boundary.series _ items

namespace Spells

variable {slot : Slot} {text : Bytes} {property : List Token -> Prop}

theorem atom {lexeme : Lexeme} {node : Node Bytes} (lexes : Lexes text lexeme)
    (read : forall pos, Exists fun tree =>
      Token.atom? ⟨pos, lexeme⟩ = some tree ∧ tree.written = node) :
    Spells text (Reads slot node) := by
  apply (Spells.lexeme lexes).mono
  rintro tokens ⟨pos, same⟩
  rcases read pos with ⟨tree, atom, written⟩
  rw [same]
  exact ⟨tree, .atom atom, written⟩

theorem items {items : List (Node Bytes)}
    (spells : forall item, item ∈ items -> Spells (item.print id) (Reads slot item)) :
    Spells (Node.printSeries id items) (Row (Reads slot) items) := by
  rw [Node.printSeries_eq]
  exact Spells.series spells (Reads.ne_nil slot)

theorem last {node : Node Bytes} (spells : Spells (node.print id) (Reads slot node)) :
    Spells (Bytes.ofText " " ++ node.print id) (Reads slot node) :=
  spells.space (Reads.ne_nil slot node)

/-- A body: expressions outside tail position, and the last one in its slot. -/
theorem body {init : List (Node Bytes)} {node : Node Bytes}
    (spellsInit : forall item, item ∈ init -> Spells (item.print id) (Reads (.code false) item))
    (spellsLast : Spells (node.print id) (Reads slot node)) :
    Spells (Node.printSeries id (init ++ [node])) fun tokens =>
      Exists fun earlier => Exists fun later =>
        Row (Reads (.code false)) init earlier ∧ Reads slot node later ∧
        tokens = earlier ++ later := by
  have row := (items spellsInit).append spellsLast.last (Boundary.space _)
  simpa only [Node.printSeries_eq, List.flatMap_append, List.flatMap_singleton] using row

/-- A special form: its word, and what follows behind it. -/
theorem form (form : SpecialForm) (spells : Spells text property) (stops : Boundary text) :
    Spells (Node.parenthesized (form.name ++ text)) fun tokens =>
      Exists fun pos => Exists fun word => Exists fun inside => Exists fun ending =>
        property inside ∧
        tokens = ⟨pos, .opening⟩ :: ⟨word, .word (.head form)⟩ ::
          (inside ++ [⟨ending, .closing⟩]) := by
  apply ((Spells.lexeme (Lexes.word (.head form))).append spells stops).parenthesized.mono
  rintro tokens ⟨pos, inside, ending, ⟨first, later, ⟨word, isWord⟩, holds, sameInside⟩, same⟩
  refine ⟨pos, word, later, ending, holds, ?_⟩
  rw [same, sameInside, isWord]
  rfl

/-- A lexeme behind a space, and what follows it. -/
theorem label {lexeme : Lexeme} {name : Bytes} (lexes : Lexes name lexeme)
    (spells : Spells text property) (stops : Boundary text) :
    Spells (Bytes.ofText " " ++ (name ++ text)) fun tokens =>
      Exists fun pos => Exists fun later => property later ∧ tokens = ⟨pos, lexeme⟩ :: later := by
  refine (((Spells.lexeme lexes).append spells stops).space ?_).mono ?_
  · rintro tokens ⟨first, later, ⟨pos, isFirst⟩, _, same⟩
    rw [same, isFirst]
    exact List.cons_ne_nil _ _
  · rintro tokens ⟨first, later, ⟨pos, isFirst⟩, holds, same⟩
    rw [isFirst, List.singleton_append] at same
    exact ⟨pos, later, holds, same⟩

/-- Something in parentheses behind a space. -/
theorem enclosed (spells : Spells text property) :
    Spells (Bytes.ofText " " ++ Node.parenthesized text) fun tokens =>
      Exists fun opening => Exists fun inside => Exists fun closing => property inside ∧
        tokens = ⟨opening, .opening⟩ :: (inside ++ [⟨closing, .closing⟩]) := by
  apply spells.parenthesized.space
  rintro tokens ⟨opening, inside, closing, _, same⟩
  rw [same]
  exact List.cons_ne_nil _ _

/-- The bindings of a scope. -/
theorem bindings {bindings : List (Bytes × Node Bytes)}
    (names : forall binding, binding ∈ bindings -> Lexes binding.1 (.symbol binding.1))
    (values : forall binding, binding ∈ bindings ->
      Spells (binding.2.print id) (Reads (.code false) binding.2)) :
    Spells (Bytes.spaced (Node.printBindings id bindings)) (Row ReadsBinding bindings) := by
  rw [Node.printBindings_eq]
  refine Spells.spaced ?_ ReadsBinding.ne_nil
  intro binding member
  have parts := (Spells.lexeme (names binding member)).append (values binding member).last
    (Boundary.space _)
  rw [List.append_assoc]
  apply parts.parenthesized.mono
  rintro tokens ⟨opening, inside, closing, ⟨label, value, ⟨pos, isName⟩, reads, sameInside⟩, same⟩
  rcases reads with ⟨tree, item, written⟩
  refine ⟨⟨opening, pos, binding.1, ⟨value, tree⟩, closing⟩, item, ?_, ?_⟩
  · rw [written]
  · rw [same, sameInside, isName]
    rfl

/-- The parameters of a lambda. -/
theorem params {params : List Bytes}
    (names : forall param, param ∈ params -> Lexes param (.symbol param)) :
    Spells (Bytes.spaced (params.map id)) (Row ReadsParam params) := by
  refine Spells.spaced ?_ ReadsParam.ne_nil
  intro param member
  apply (Spells.lexeme (names param member)).mono
  rintro tokens ⟨pos, same⟩
  exact ⟨⟨pos, param⟩, rfl, same⟩

/-- What stands between the word of a lambda and its body. -/
theorem lambdaHead {name : Option Bytes} {params : List Bytes}
    (isLabel : forall label, name = some label -> IsLabel label)
    (names : forall param, param ∈ params -> Lexes param (.symbol param)) :
    Spells (Bytes.ofText " " ++ (Node.printLambdaName name ++ Node.printParams id params))
      fun tokens => Exists fun label => Exists fun opening => Exists fun inside =>
        Exists fun closing => Label label name ∧
        Row ReadsParam params inside ∧
          tokens = label ++ ⟨opening, .opening⟩ :: (inside ++ [⟨closing, .closing⟩]) := by
  have list := (Spells.params names).enclosed
  cases name with
  | none =>
      apply list.mono
      rintro tokens ⟨opening, inside, closing, row, same⟩
      exact ⟨[], opening, inside, closing, .absent, row, same⟩
  | some name =>
      rcases isLabel name rfl with ⟨lexeme, lexes, named⟩
      rw [Node.printLambdaName, List.append_assoc]
      apply (label lexes list (.space _)).mono
      rintro tokens ⟨pos, later, ⟨opening, inside, closing, row, sameLater⟩, same⟩
      refine ⟨[⟨pos, lexeme⟩], opening, inside, closing, .present named, row, ?_⟩
      rw [same, sameLater, List.singleton_append]

/-! One lemma for each form: if the parts are read back, so is the form. -/

theorem list {first : Node Bytes} {others : List (Node Bytes)} (leads : slot.Leads first)
    (spells : forall item, item ∈ first :: others ->
      Spells (item.print id) (Reads slot.element item)) :
    Spells ((Node.list ⟨.start, slot.isTail⟩ first others).print id)
      (Reads slot (.list ⟨.start, slot.isTail⟩ first others)) := by
  rcases List.forall_mem_cons.1 spells with ⟨spellsFirst, spellsOthers⟩
  have whole := (spellsFirst.append (items spellsOthers) (.printSeries others)).parenthesized
  apply whole.mono
  rintro tokens ⟨pos, inside, ending, ⟨earlier, later, reads, row, sameInside⟩, same⟩
  rcases reads with ⟨tree, item, written⟩
  rcases Reads.parts_of_row row with ⟨parts, items, sameOthers, sameLater⟩
  rw [← written] at leads
  rw [same, sameInside, sameLater, ← written, sameOthers]
  refine ⟨_, @Item.list slot pos ending ⟨earlier, tree⟩ parts (item.admits_of_leads leads)
    (List.forall_mem_cons.2 ⟨item, items⟩), ?_⟩
  rw [Node.written_list, List.map_map]
  rfl

theorem dotted {first final : Node Bytes} {others : List (Node Bytes)} (leads : slot.Leads first)
    (spells : forall item, item ∈ first :: others ->
      Spells (item.print id) (Reads slot.element item))
    (spellsFinal : Spells (final.print id) (Reads slot.element final))
    (single : final.isPair = false) :
    Spells ((Node.pair (.plain .start) first (Node.chain final others)).print id)
      (Reads slot (.pair (.plain .start) first (Node.chain final others))) := by
  rcases List.forall_mem_cons.1 spells with ⟨spellsFirst, spellsOthers⟩
  have behind := (items spellsOthers).append (label Lexes.dot spellsFinal.last (.space _)) (.space _)
  rw [Node.print_dotted id _ first single others]
  refine (spellsFirst.append behind
    ((Boundary.printSeries others).append (.space _))).parenthesized.mono ?_
  rintro tokens ⟨pos, inside, ending, ⟨earlier, later, ⟨tree, item, written⟩, ⟨middle, _, row,
    ⟨dot, finalTokens, ⟨finalTree, finalItem, finalWritten⟩, sameBehind⟩, sameLater⟩,
    sameInside⟩, same⟩
  rcases Reads.parts_of_row row with ⟨parts, items, sameOthers, sameMiddle⟩
  rw [← written] at leads
  have derived := @Item.dotted slot pos dot finalTokens finalTree ending ⟨earlier, tree⟩ parts
    (item.admits_of_leads leads) (List.forall_mem_cons.2 ⟨item, items⟩) finalItem
  have chain := Node.written_chain finalTree (parts.map Passage.tree)
  rw [finalWritten, List.map_map] at chain
  refine Reads.of_item derived ?_ ?_
  · simp [same, sameInside, sameLater, sameMiddle, sameBehind]
  · rw [sameOthers, ← written]
    exact congrArg (Node.pair (.plain .start) tree.written) chain

theorem quote {tail : Bool} {datum : Node Bytes}
    (spells : Spells (datum.print id) (Reads .data datum)) :
    Spells ((Node.quote (.plain .start) datum).print id)
      (Reads (.code tail) (.quote (.plain .start) datum)) := by
  apply (form .quote spells.last (.space _)).mono
  rintro tokens ⟨pos, word, inside, ending, ⟨tree, item, written⟩, same⟩
  rw [same, ← written]
  exact ⟨_, .quote item, rfl⟩

theorem emptyBegin {tail : Bool} :
    Spells ((Node.begin ⟨.start, tail⟩ []).print id)
      (Reads (.code tail) (.begin ⟨.start, tail⟩ [])) := by
  apply (form .begin nil .nil).mono
  rintro tokens ⟨pos, word, inside, ending, nothing, same⟩
  rw [same, nothing]
  exact ⟨_, .emptyBegin, rfl⟩

theorem begin {tail : Bool} {init : List (Node Bytes)} {final : Node Bytes}
    (spellsInit : forall item, item ∈ init -> Spells (item.print id) (Reads (.code false) item))
    (spellsFinal : Spells (final.print id) (Reads (.code tail) final)) :
    Spells ((Node.begin ⟨.start, tail⟩ (init ++ [final])).print id)
      (Reads (.code tail) (.begin ⟨.start, tail⟩ (init ++ [final]))) := by
  apply (form .begin (body spellsInit spellsFinal) (.printSeries _)).mono
  rintro tokens ⟨pos, word, inside, ending, ⟨earlier, later, row, ⟨tree, item, written⟩,
    sameInside⟩, same⟩
  rcases Reads.parts_of_row row with ⟨parts, items, sameInit, sameEarlier⟩
  rw [same, sameInside, sameEarlier, List.append_assoc, ← written, sameInit]
  refine ⟨_, .begin items item, ?_⟩
  rw [Node.written_begin, List.map_append, List.map_map, List.map_singleton]
  rfl

theorem define {tail : Bool} {name : Bytes} {value : Node Bytes} (isLabel : IsLabel name)
    (spells : Spells (value.print id) (Reads (.code false) value)) :
    Spells ((Node.define (.plain .start) name value).print id)
      (Reads (.code tail) (.define (.plain .start) name value)) := by
  rcases isLabel with ⟨lexeme, lexes, named⟩
  have text : (Node.define (.plain .start) name value).print id = Node.parenthesized
      (SpecialForm.define.name ++
        (Bytes.ofText " " ++ (name ++ (Bytes.ofText " " ++ value.print id)))) := by
    rw [Node.print, Node.printAt]
    simp only [List.append_assoc]
    rfl
  rw [text]
  apply (form .define (label lexes spells.last (.space _)) (.space _)).mono
  rintro tokens ⟨pos, word, inside, ending, ⟨place, later, ⟨tree, item, written⟩, sameInside⟩, same⟩
  rw [same, sameInside, ← written]
  exact ⟨_, .define named item, rfl⟩

theorem conditional {tail : Bool} {test consequent alternative : Node Bytes}
    (spellsTest : Spells (test.print id) (Reads (.code false) test))
    (spellsConsequent : Spells (consequent.print id) (Reads (.code tail) consequent))
    (spellsAlternative : Spells (alternative.print id) (Reads (.code tail) alternative)) :
    Spells ((Node.conditional ⟨.start, tail⟩ test consequent alternative).print id)
      (Reads (.code tail) (.conditional ⟨.start, tail⟩ test consequent alternative)) := by
  have parts := spellsTest.last.append
    (spellsConsequent.last.append spellsAlternative.last (.space _)) (.space _)
  have text : (Node.conditional ⟨.start, tail⟩ test consequent alternative).print id =
      Node.parenthesized (SpecialForm.conditional.name ++
        ((Bytes.ofText " " ++ test.print id) ++ ((Bytes.ofText " " ++ consequent.print id) ++
          (Bytes.ofText " " ++ alternative.print id)))) := by
    rw [Node.print, Node.printAt]
    simp only [List.append_assoc]
    rfl
  rw [text]
  apply (form .conditional parts (.space _)).mono
  rintro tokens ⟨pos, word, inside, ending, ⟨first, others, ⟨testTree, testItem, testWritten⟩,
    ⟨second, third, ⟨consequentTree, consequentItem, consequentWritten⟩,
      ⟨alternativeTree, alternativeItem, alternativeWritten⟩, sameOthers⟩, sameInside⟩, same⟩
  rw [same, sameInside, sameOthers, ← testWritten, ← consequentWritten, ← alternativeWritten,
    List.append_assoc, List.append_assoc]
  exact ⟨_, .conditional testItem consequentItem alternativeItem, rfl⟩

theorem scope {tail : Bool} {kind : ScopeKind} {bindings : List (Bytes × Node Bytes)}
    {init : List (Node Bytes)} {final : Node Bytes}
    (loops : kind = .loop -> final.reachesRecur = true)
    (names : forall binding, binding ∈ bindings -> Lexes binding.1 (.symbol binding.1))
    (values : forall binding, binding ∈ bindings ->
      Spells (binding.2.print id) (Reads (.code false) binding.2))
    (spellsInit : forall item, item ∈ init -> Spells (item.print id) (Reads (.code false) item))
    (spellsFinal : Spells (final.print id) (Reads (.code true) final)) :
    Spells ((Node.scope ⟨.start, tail⟩ kind bindings (init ++ [final])).print id)
      (Reads (.code tail) (.scope ⟨.start, tail⟩ kind bindings (init ++ [final]))) := by
  have parts := (Spells.bindings names values).enclosed.append (body spellsInit spellsFinal)
    (.printSeries _)
  have text : (Node.scope ⟨.start, tail⟩ kind bindings (init ++ [final])).print id =
      Node.parenthesized ((SpecialForm.scope kind).name ++ ((Bytes.ofText " " ++
        Node.parenthesized (Bytes.spaced (Node.printBindings id bindings))) ++
          Node.printSeries id (init ++ [final]))) := by
    rw [Node.print, Node.printAt]
    simp only [List.append_assoc]
    rfl
  rw [text]
  apply (form (.scope kind) parts (.space _)).mono
  rintro tokens ⟨pos, word, inside, ending, ⟨head, behind, ⟨opening, bound, closing, boundRow,
    sameHead⟩, ⟨earlier, later, row, ⟨tree, item, written⟩, sameBehind⟩, sameInside⟩, same⟩
  rcases ReadsBinding.parts_of_row boundRow with ⟨boundParts, boundItems, sameBindings, sameBound⟩
  rcases Reads.parts_of_row row with ⟨parts, items, sameInit, sameEarlier⟩
  have derived := @Item.scope tail pos word kind opening closing later tree ending boundParts parts
    boundItems items item
  have sameKind : (if tree.reachesRecur then kind else .once) = kind := by
    rw [← written, Node.reachesRecur_written] at loops
    cases kind with
    | once => exact ite_self _
    | loop => rw [loops rfl, if_pos rfl]
  rw [sameKind] at derived
  refine Reads.of_item derived ?_ ?_
  · simp [same, sameInside, sameHead, sameBound, sameBehind, sameEarlier]
  · rw [Node.written_scope, List.map_append, List.map_map, List.map_map, List.map_singleton, written,
      sameInit, sameBindings]
    rfl

theorem lambda {tail : Bool} {name : Option Bytes} {params : List Bytes}
    {init : List (Node Bytes)} {final : Node Bytes}
    (isLabel : forall label, name = some label -> IsLabel label)
    (names : forall param, param ∈ params -> Lexes param (.symbol param))
    (distinct : params.Nodup)
    (spellsInit : forall item, item ∈ init -> Spells (item.print id) (Reads (.code false) item))
    (spellsFinal : Spells (final.print id) (Reads (.code true) final)) :
    Spells ((Node.lambda (.plain .start) name params (init ++ [final])).print id)
      (Reads (.code tail) (.lambda (.plain .start) name params (init ++ [final]))) := by
  have parts := (lambdaHead isLabel names).append (body spellsInit spellsFinal) (.printSeries _)
  have text : (Node.lambda (.plain .start) name params (init ++ [final])).print id =
      Node.parenthesized (SpecialForm.lambda.name ++ ((Bytes.ofText " " ++
        (Node.printLambdaName name ++ Node.printParams id params)) ++
          Node.printSeries id (init ++ [final]))) := by
    rw [Node.print, Node.printAt]
    simp only [List.append_assoc]
    rfl
  rw [text]
  apply (form .lambda parts (.space _)).mono
  rintro tokens ⟨pos, word, inside, ending, ⟨head, behind, ⟨label, opening, bound, closing, isLabel,
    boundRow, sameHead⟩, ⟨earlier, later, row, ⟨tree, item, written⟩, sameBehind⟩, sameInside⟩, same⟩
  rcases ReadsParam.params_of_row boundRow with ⟨boundParts, sameParams, sameBound⟩
  rcases Reads.parts_of_row row with ⟨parts, items, sameInit, sameEarlier⟩
  rw [sameParams] at distinct
  have derived := @Item.lambda tail pos word label name opening closing later tree ending boundParts
    parts isLabel distinct items item
  refine Reads.of_item derived ?_ ?_
  · simp [same, sameInside, sameHead, sameBound, sameBehind, sameEarlier]
  · rw [Node.written_lambda, List.map_append, List.map_map, List.map_map, List.map_singleton,
      written, sameInit, sameParams]
    rfl

theorem recur {args : List (Node Bytes)}
    (spells : forall item, item ∈ args -> Spells (item.print id) (Reads (.code false) item)) :
    Spells ((Node.recur ⟨.start, true⟩ args).print id)
      (Reads (.code true) (.recur ⟨.start, true⟩ args)) := by
  apply (form .recur (items spells) (.printSeries args)).mono
  rintro tokens ⟨pos, word, inside, ending, row, same⟩
  rcases Reads.parts_of_row row with ⟨parts, items, sameArgs, sameInside⟩
  rw [same, sameInside, sameArgs]
  refine ⟨_, .recur items, ?_⟩
  rw [Node.written_recur, List.map_map]
  rfl

end Spells

namespace Legible

/-- A legible tree is printed as an item of its slot that stands for it. -/
theorem spells {slot : Slot} {node : Node Bytes} (legible : Legible slot node) :
    Spells (node.print id) (Reads slot node) := by
  induction legible with
  | integer => exact .atom (Lexes.integer _) fun pos => ⟨_, rfl, rfl⟩
  | char => exact .atom (Lexes.char _) fun pos => ⟨_, rfl, rfl⟩
  | @string slot contents =>
      refine .atom (Lexes.string contents) fun pos => ⟨.string (.plain pos) contents, ?_, rfl⟩
      simp only [Token.atom?, Escape.decode_encode, Option.map_some]
  | @boolean slot value => exact .atom (Lexes.word (.truth value)) fun pos => ⟨_, rfl, rfl⟩
  | symbol lexes => exact .atom lexes fun pos => ⟨_, rfl, rfl⟩
  | @word slot form => exact .atom (Lexes.word (.head form)) fun pos => ⟨_, rfl, rfl⟩
  | empty =>
      apply Spells.nil.parenthesized.mono
      rintro tokens ⟨pos, inside, ending, nothing, same⟩
      rw [same, nothing]
      exact ⟨_, .empty, rfl⟩
  | list leads _ spells => exact .list leads spells
  | dotted leads _ _ single spells spellsLast => exact .dotted leads spells spellsLast single
  | quote _ spells => exact .quote spells
  | emptyBegin => exact .emptyBegin
  | begin _ _ spellsInit spellsLast => exact .begin spellsInit spellsLast
  | define isLabel _ spells => exact .define isLabel spells
  | conditional _ _ _ spellsTest spellsConsequent spellsAlternative =>
      exact .conditional spellsTest spellsConsequent spellsAlternative
  | scope loops names _ _ _ values spellsInit spellsLast =>
      exact .scope loops names values spellsInit spellsLast
  | lambda isLabel names distinct _ _ spellsInit spellsLast =>
      exact .lambda isLabel names distinct spellsInit spellsLast
  | recur _ spells => exact .recur spells

end Legible

end TailLisp

import TailLisp.Proofs.NormalForm
import TailLisp.Proofs.Sameness
import TailLisp.Proofs.Topics

namespace TailLisp

/-!
Outlines tell trees apart.

A line of an outline shows free text beside its caption: a symbol may be called
`[tail]` or `=`, and a binding `body:`.  Nothing is lost by that.  The first word
of a line is the kind of its node, and the kind decides whether anything follows
the caption at all: nodes that can be in tail position show nothing, and nodes
that show something are never in tail position.  So the caption can be cut off,
and what is left is a text that can be read back.

A node is determined by its line, the names that it binds and the children that
have lines of their own (`Node.eq_of_line_eq`).  With the shape of the outline,
which its lines determine, this gives back the whole tree.
-/

open ByteClass Grammar

/-! ## Words -/

/-- The text is not empty and consists of constituents. -/
structure IsWord (text : Bytes) : Prop where
  nonempty : text ≠ []
  constituents : text.all isConstituent = true

namespace IsWord

theorem of_isLabel {name : Bytes} (isLabel : IsLabel name) : IsWord name where
  nonempty := by
    rcases isLabel with ⟨_, ⟨_, _, same, _⟩, _⟩
    rw [same]
    exact List.cons_ne_nil _ _
  constituents := isLabel.all_isConstituent

/-- A word and what follows it can be told apart. -/
theorem append_inj {word other rest more : Bytes} (isWord : IsWord word) (alsoWord : IsWord other)
    (boundary : Boundary rest) (alsoBoundary : Boundary more)
    (same : word ++ rest = other ++ more) : word = other ∧ rest = more :=
  Bytes.append_inj_of_kind (List.all_eq_true.1 isWord.constituents)
    (List.all_eq_true.1 alsoWord.constituents) boundary alsoBoundary same

/-- A word can begin a line. -/
theorem isText {word rest : Bytes} (isWord : IsWord word) (line : OneLine rest) :
    OutlineLine.IsText (word ++ rest) := by
  rcases isWord with ⟨nonempty, constituents⟩
  have whole : OneLine (word ++ rest) :=
    OneLine.append_iff.2 ⟨.of_constituents constituents, line⟩
  refine ⟨fun member => (whole newline member).1 rfl, List.append_ne_nil_of_left_ne_nil nonempty _,
    ?_⟩
  cases word with
  | nil => exact absurd rfl nonempty
  | cons first word =>
      intro isSpace
      have constituent := (List.all_eq_true.1 constituents) first List.mem_cons_self
      rw [Option.some.inj isSpace] at constituent
      revert constituent
      decide

end IsWord

namespace NodeKind

def all : List NodeKind :=
  [integer, char, string, boolean, symbol, empty, pair, list, quote, begin, define, conditional,
    scope .once, scope .loop, lambda, recur]

theorem mem_all (kind : NodeKind) : kind ∈ all := by
  cases kind with
  | scope kind => cases kind <;> decide
  | _ => decide

theorem eq_of_name_eq {left right : NodeKind} (same : left.name = right.name) : left = right := by
  have distinct : (all.map name).Nodup := by decide +kernel
  exact List.inj_on_of_nodup_map distinct left.mem_all right.mem_all same

theorem isWord_name (kind : NodeKind) : IsWord kind.name := by
  have words : forall kind, kind ∈ all -> kind.name ≠ [] ∧ kind.name.all isConstituent = true := by
    decide +kernel
  exact ⟨(words kind kind.mem_all).1, (words kind kind.mem_all).2⟩

/-- Whether the line of such a node shows something behind its caption. -/
def isDetailed : NodeKind -> Bool
  | integer | char | string | boolean | symbol | quote | define | lambda => true
  | _ => false

end NodeKind

/-! ## Lines that can be read back -/

namespace Node

/-- The tree has no place, what its line shows can be read back, and it is not in
tail position if its line shows something. -/
def Readable : Node Bytes -> Prop
  | symbol mark name => mark = .plain .start ∧ IsLabel name
  | quote mark datum => mark = .plain .start ∧ Legible .data datum
  | define mark name _ => mark = .plain .start ∧ IsLabel name
  | lambda mark name params _ =>
      mark = .plain .start ∧ (forall label, name = some label -> IsLabel label) ∧
        forall param, param ∈ params -> Lexes param (.symbol param)
  | scope mark _ bindings _ =>
      mark.pos = .start ∧ forall binding, binding ∈ bindings -> IsLabel binding.1
  | list mark _ _ | begin mark _ | conditional mark _ _ _ | recur mark _ => mark.pos = .start
  | node => node.mark = .plain .start

variable {Symbol : Type} {left right node : Node Bytes}

theorem boundary_detail (name : Symbol -> Bytes) (node : Node Symbol) :
    Boundary (node.detail name) := by
  have spaced (text : Bytes) : Boundary (Bytes.ofText " " ++ text) := .cons text (by decide)
  cases node with
  | lambda mark label params body =>
      refine Boundary.append ?_ (spaced _)
      cases label with
      | none => exact .nil
      | some label => exact spaced label
  | integer | char | string | boolean | symbol | quote | define => exact spaced _
  | _ => exact .nil

theorem detail_eq_nil_iff (name : Symbol -> Bytes) (node : Node Symbol) :
    node.detail name = [] ↔ node.kind.isDetailed = false := by
  have space : Bytes.ofText " " ≠ [] := by decide
  cases node <;> simp [detail, kind, NodeKind.isDetailed, space]

namespace Readable

theorem pos_eq (readable : node.Readable) : node.mark.pos = .start := by
  cases node <;> simp_all [Readable, mark, Mark.plain]

theorem tail_of_isDetailed (readable : node.Readable) (detailed : node.kind.isDetailed = true) :
    node.mark.tail = false := by
  cases node <;> simp_all [Readable, mark, Mark.plain, kind, NodeKind.isDetailed]

/-- A line that can be read back determines the kind of its node, its mark, and
what is shown behind the caption. -/
theorem heads_eq (leftReadable : left.Readable) (rightReadable : right.Readable)
    (same : left.headline id = right.headline id) :
    left.kind = right.kind ∧ left.mark = right.mark ∧ left.detail id = right.detail id := by
  have boundary (tail : Bool) (node : Node Bytes) :
      Boundary ((if tail then Bytes.ofText " [tail]" else []) ++ node.detail id) := by
    cases tail with
    | true => exact .cons _ (by decide)
    | false => exact boundary_detail id node
  rw [headline, headline, caption, caption, List.append_assoc, List.append_assoc] at same
  rcases left.kind.isWord_name.append_inj right.kind.isWord_name (boundary _ left)
    (boundary _ right) same with ⟨sameName, same⟩
  have sameKind := NodeKind.eq_of_name_eq sameName
  have marks (sameTail : left.mark.tail = right.mark.tail) : left.mark = right.mark :=
    congrArg₂ Mark.mk (leftReadable.pos_eq.trans rightReadable.pos_eq.symm) sameTail
  -- Either both lines have no remark, or both show nothing behind it.
  by_cases detailed : left.kind.isDetailed = true
  · have leftTail := leftReadable.tail_of_isDetailed detailed
    have rightTail := rightReadable.tail_of_isDetailed (sameKind ▸ detailed)
    rw [leftTail, rightTail] at same
    exact ⟨sameKind, marks (leftTail.trans rightTail.symm), same⟩
  · have leftNothing := (detail_eq_nil_iff id left).2 (Bool.eq_false_iff.2 detailed)
    have rightNothing := (detail_eq_nil_iff id right).2 (Bool.eq_false_iff.2 (sameKind ▸ detailed))
    rw [leftNothing, rightNothing, List.append_nil, List.append_nil] at same
    have remarks : forall first second : Bool,
        (if first then Bytes.ofText " [tail]" else []) =
          (if second then Bytes.ofText " [tail]" else []) -> first = second := by
      decide
    exact ⟨sameKind, marks (remarks _ _ same), leftNothing.trans rightNothing.symm⟩

theorem oneLine_detail (readable : node.Readable) : OneLine (node.detail id) := by
  have spaced {text : Bytes} (line : OneLine text) : OneLine (Bytes.ofText " " ++ text) :=
    OneLine.append_iff.2 ⟨by decide, line⟩
  cases node with
  | integer mark value => exact spaced (@Legible.integer .data value).oneLine
  | char mark value => exact spaced (.printChar value)
  | string mark contents => exact spaced (.printString contents)
  | boolean mark value => exact spaced (@Legible.boolean .data value).oneLine
  | symbol mark name => exact spaced (.of_isLabel readable.2)
  | quote mark datum => exact spaced readable.2.oneLine
  | define mark name value => exact spaced (.of_isLabel readable.2)
  | lambda mark name params body =>
      rcases readable with ⟨_, named, labelled⟩
      refine OneLine.append_iff.2 ⟨?_, spaced (.parenthesized (.spaced ?_))⟩
      · cases name with
        | none => exact .nil
        | some name => exact spaced (.of_isLabel (named name rfl))
      · rw [List.map_id]
        intro param member
        exact .of_lexes (labelled param member) rfl
  | _ => exact .nil

/-- All lines of a node that can be read back can stand in an outline. -/
theorem isText (readable : node.Readable) {entry : OutlineEntry Bytes}
    (member : entry ∈ node.entries) : OutlineLine.IsText (entry.text id) := by
  have own : OutlineLine.IsText (node.headline id) := by
    rw [headline, caption, List.append_assoc]
    apply node.kind.isWord_name.isText
    refine OneLine.append_iff.2 ⟨?_, readable.oneLine_detail⟩
    split
    · decide
    · exact .nil
  have label : OutlineLine.IsText (Bytes.ofText "body:") :=
    ⟨by decide, by decide, by decide⟩
  cases node with
  | scope mark kind bindings body =>
      rcases List.mem_cons.1 member with same | member
      · rw [same]
        exact own
      rcases List.mem_append.1 member with bound | isBody
      · rcases List.mem_map.1 bound with ⟨binding, inside, same⟩
        rw [← same]
        exact (IsWord.of_isLabel (readable.2 binding inside)).isText (by decide)
      · rw [List.mem_singleton.1 isBody]
        exact label
  | lambda mark name params body =>
      rcases List.mem_cons.1 member with same | isBody
      · rw [same]
        exact own
      · rw [List.mem_singleton.1 isBody]
        exact label
  | _ =>
      rw [List.mem_singleton.1 member]
      exact own

end Readable

/-! ## Nodes from their lines -/

theorem listed_ofList (mark : Mark) (items : List (Node Symbol)) :
    (ofList mark items).listed = items := by
  cases items with
  | nil => rfl
  | cons first others => exact listed_list mark first others

/-- A parameter list is printed as the list of its names. -/
theorem print_ofList_symbols (params : List Bytes) :
    (ofList (.plain .start) (params.map (symbol (.plain .start)))).print id =
      printParams id params := by
  cases params with
  | nil => rfl
  | cons param params =>
      rw [printParams, List.map_id, Spells.spaced_cons, List.map_cons, ofList, print, printAt,
        printSeries_eq, List.flatMap_map]
      rfl

theorem printParams_inj {params others : List Bytes}
    (labelled : forall param, param ∈ params -> Lexes param (.symbol param))
    (alsoLabelled : forall param, param ∈ others -> Lexes param (.symbol param))
    (same : printParams id params = printParams id others) : params = others := by
  have legible {params : List Bytes}
      (labelled : forall param, param ∈ params -> Lexes param (.symbol param)) :
      Legible .data (ofList (.plain .start) (params.map (symbol (.plain .start)))) := by
    cases params with
    | nil => exact .empty
    | cons param params =>
        apply @Legible.list .data _ _ trivial
        rw [← List.map_cons, List.forall_mem_map]
        exact fun param member => .symbol (labelled param member)
  rw [← print_ofList_symbols, ← print_ofList_symbols] at same
  have sameList := (legible labelled).eq_of_print_eq (legible alsoLabelled) same
  have sameItems := congrArg listed sameList
  rw [listed_ofList, listed_ofList] at sameItems
  exact List.map_injective_iff.2 (fun _ _ same => (symbol.inj same).2) sameItems

/-- The name of a lambda ends before its parameter list begins. -/
theorem signature_inj {name other : Option Bytes} {params others : List Bytes}
    (named : forall label, name = some label -> IsLabel label)
    (alsoNamed : forall label, other = some label -> IsLabel label)
    (labelled : forall param, param ∈ params -> Lexes param (.symbol param))
    (alsoLabelled : forall param, param ∈ others -> Lexes param (.symbol param))
    (same : outlineLambdaName name ++ (Bytes.ofText " " ++ printParams id params) =
      outlineLambdaName other ++ (Bytes.ofText " " ++ printParams id others)) :
    name = other ∧ params = others := by
  have spaced (text : Bytes) : Boundary (Bytes.ofText " " ++ text) := .cons text (by decide)
  -- A parameter list begins with a parenthesis, which no name contains.
  have apart {label : Bytes} (isLabel : IsLabel label) (params others : List Bytes) :
      printParams id params ≠ label ++ (Bytes.ofText " " ++ printParams id others) := by
    intro same
    rcases IsWord.of_isLabel isLabel with ⟨nonempty, constituents⟩
    have opens : Boundary (printParams id params) := .cons _ (by decide)
    have nothing := Bytes.append_inj_of_kind (List.forall_mem_nil _)
      (List.all_eq_true.1 constituents) opens (spaced _) ((List.nil_append _).trans same)
    exact nonempty nothing.1.symm
  cases name with
  | none =>
      cases other with
      | none => exact ⟨rfl, printParams_inj labelled alsoLabelled (List.append_cancel_left same)⟩
      | some label =>
          rw [outlineLambdaName, outlineLambdaName, List.nil_append, List.append_assoc] at same
          exact absurd (List.append_cancel_left same) (apart (alsoNamed label rfl) params others)
  | some label =>
      rw [outlineLambdaName, List.append_assoc] at same
      cases other with
      | none =>
          rw [outlineLambdaName, List.nil_append] at same
          exact absurd (List.append_cancel_left same).symm (apart (named label rfl) others params)
      | some other =>
          rw [outlineLambdaName, List.append_assoc] at same
          rcases (IsWord.of_isLabel (named label rfl)).append_inj
            (IsWord.of_isLabel (alsoNamed other rfl)) (spaced _) (spaced _)
            (List.append_cancel_left same) with ⟨sameName, sameParams⟩
          rw [sameName, printParams_inj labelled alsoLabelled (List.append_cancel_left sameParams)]
          exact ⟨rfl, rfl⟩

/-- The names that a node binds on lines of their own. -/
def bound : Node Symbol -> List Symbol
  | scope _ _ bindings _ => bindings.map Prod.fst
  | _ => []

/-- A node is determined by its line, the names that it binds, and the children
that have lines of their own. -/
theorem eq_of_line_eq (leftReadable : left.Readable) (rightReadable : right.Readable)
    (same : left.headline id = right.headline id)
    (sameNames : left.bound = right.bound) (sameChildren : left.listed = right.listed) :
    left = right := by
  rcases leftReadable.heads_eq rightReadable same with ⟨kinds, marks, details⟩
  -- Only nodes of one kind are left, and they have the same mark.
  cases left <;> cases right <;> cases kinds <;> cases marks
  case integer.integer value number =>
      cases leftReadable
      exact Legible.eq_of_print_eq (@Legible.integer .data value) .integer
        (List.append_cancel_left details)
  case char.char value number =>
      cases leftReadable
      exact Legible.eq_of_print_eq (@Legible.char .data value) .char
        (List.append_cancel_left details)
  case string.string contents text =>
      cases leftReadable
      exact Legible.eq_of_print_eq (@Legible.string .data contents) .string
        (List.append_cancel_left details)
  case boolean.boolean value truth =>
      cases leftReadable
      exact Legible.eq_of_print_eq (@Legible.boolean .data value) .boolean
        (List.append_cancel_left details)
  case symbol.symbol name label =>
      cases List.append_cancel_left details
      rfl
  case empty.empty => rfl
  case pair.pair =>
      cases sameChildren
      rfl
  case list.list =>
      rw [listed_list, listed_list] at sameChildren
      cases sameChildren
      rfl
  case quote.quote =>
      rw [leftReadable.2.eq_of_print_eq rightReadable.2 (List.append_cancel_left details)]
  case begin.begin =>
      rw [listed_begin, listed_begin] at sameChildren
      rw [sameChildren]
  case define.define =>
      cases List.append_cancel_left details
      cases sameChildren
      rfl
  case conditional.conditional =>
      cases sameChildren
      rfl
  case scope.scope bindings body pairs items =>
      -- As many values as names belong to the bindings, and the others to the body.
      rw [listed_scope, listed_scope] at sameChildren
      have sameLength : (bindings.map Prod.snd).length = (pairs.map Prod.snd).length := by
        have lengths := congrArg List.length sameNames
        rwa [bound, bound, List.length_map, List.length_map, ← List.length_map Prod.snd,
          ← List.length_map Prod.snd] at lengths
      rcases List.append_inj sameChildren sameLength with ⟨sameValues, sameBody⟩
      have sameBindings : bindings = pairs :=
        (List.zip_of_prod sameNames sameValues).trans (List.zip_of_prod rfl rfl).symm
      rw [sameBindings, sameBody]
  case lambda.lambda =>
      rcases leftReadable with ⟨_, named, labelled⟩
      rcases rightReadable with ⟨_, alsoNamed, alsoLabelled⟩
      rcases signature_inj named alsoNamed labelled alsoLabelled details with
        ⟨sameName, sameParams⟩
      rw [listed_lambda, listed_lambda] at sameChildren
      rw [sameName, sameParams, sameChildren]
  case recur.recur =>
      rw [listed_recur, listed_recur] at sameChildren
      rw [sameChildren]

/-! ## Trees from their topics -/

section Sheets

variable (name : Symbol -> Bytes)

/-- The topic of a tree with the texts of its lines. -/
def sheet (node : Node Symbol) : Topic Bytes :=
  node.topic.map (OutlineEntry.text name)

theorem label_sheet (node : Node Symbol) : (node.sheet name).label = node.headline name := by
  cases node <;> rfl

theorem outlineAt_eq_rowsAt_sheet (depth : Nat) (node : Node Symbol) :
    node.outlineAt name depth =
      ((node.sheet name).rowsAt depth).map fun row => OutlineLine.mk row.1 row.2 := by
  rw [outlineAt_eq, sheet, Topic.rowsAt_map, List.map_map]
  rfl

theorem sheet_eq_of_entries {node : Node Symbol} (single : node.entries = [.node node]) :
    node.sheet name = .mk (node.headline name) (node.listed.map (sheet name)) := by
  rw [sheet, topic_eq_of_entries single, Topic.map, Topic.mapSeries_eq, List.map_map]
  rfl

theorem sheet_scope (mark : Mark) (kind : ScopeKind) (bindings : List (Symbol × Node Symbol))
    (body : List (Node Symbol)) :
    (scope mark kind bindings body).sheet name =
      .mk ((scope mark kind bindings body).headline name)
        (bindings.map (fun binding =>
            .mk (name binding.1 ++ Bytes.ofText " =") [binding.2.sheet name]) ++
          [.mk (Bytes.ofText "body:") (body.map (sheet name))]) := by
  rw [sheet, topic, topics_eq, topicsOfBindings_eq, Topic.map, Topic.mapSeries_eq, List.map_append,
    List.map_map, List.map_singleton, Topic.map, Topic.mapSeries_eq, List.map_map]
  rfl

theorem sheet_lambda (mark : Mark) (label : Option Bytes) (params : List Symbol)
    (body : List (Node Symbol)) :
    (lambda mark label params body).sheet name =
      .mk ((lambda mark label params body).headline name)
        [.mk (Bytes.ofText "body:") (body.map (sheet name))] := by
  rw [sheet, topic, topics_eq, Topic.map, Topic.mapSeries_eq, List.map_singleton, Topic.map,
    Topic.mapSeries_eq, List.map_map]
  rfl

end Sheets

/-- Bindings with the same topics have the same names, and their values have the
same topics. -/
theorem bindings_of_topics_eq {bindings pairs : List (Bytes × Node Bytes)}
    (same : bindings.map (fun binding =>
        Topic.mk (binding.1 ++ Bytes.ofText " =") [binding.2.sheet id]) =
      pairs.map fun binding => Topic.mk (binding.1 ++ Bytes.ofText " =") [binding.2.sheet id]) :
    bindings.map Prod.fst = pairs.map Prod.fst ∧
      (bindings.map Prod.snd).map (sheet id) = (pairs.map Prod.snd).map (sheet id) := by
  have injective : Function.Injective fun line : Bytes × Topic Bytes =>
      Topic.mk (line.1 ++ Bytes.ofText " =") [line.2] := by
    intro line other sameTopic
    rcases Topic.mk.inj sameTopic with ⟨sameLine, sameValue⟩
    exact Prod.ext (List.append_cancel_right sameLine) (List.head_eq_of_cons_eq sameValue)
  have lines : bindings.map (fun binding => (binding.1, binding.2.sheet id)) =
      pairs.map fun binding => (binding.1, binding.2.sheet id) := by
    apply List.map_injective_iff.2 injective
    rwa [List.map_map, List.map_map]
  have names := congrArg (List.map Prod.fst) lines
  have values := congrArg (List.map Prod.snd) lines
  rw [List.map_map, List.map_map] at names values ⊢
  exact ⟨names, values⟩

/-- Nodes of one kind with the same topics bind the same names, and their
children have the same topics. -/
theorem listed_of_sheet_eq (kinds : left.kind = right.kind)
    (same : left.sheet id = right.sheet id) :
    left.bound = right.bound ∧ left.listed.map (sheet id) = right.listed.map (sheet id) := by
  have plain (single : left.entries = [.node left]) (alsoSingle : right.entries = [.node right]) :
      left.listed.map (sheet id) = right.listed.map (sheet id) := by
    rw [sheet_eq_of_entries id single, sheet_eq_of_entries id alsoSingle] at same
    exact (Topic.mk.inj same).2
  cases left <;> cases right <;> cases kinds
  case scope.scope mark bindings body other pairs items =>
      rw [sheet_scope, sheet_scope, Topic.mk.injEq] at same
      rcases List.append_inj' same.2 rfl with ⟨sameBindings, sameBody⟩
      rcases bindings_of_topics_eq sameBindings with ⟨names, values⟩
      have bodies := (Topic.mk.inj (List.head_eq_of_cons_eq sameBody)).2
      rw [listed_scope, listed_scope, List.map_append, List.map_append, values, bodies]
      exact ⟨names, rfl⟩
  case lambda.lambda =>
      rw [sheet_lambda, sheet_lambda, Topic.mk.injEq, List.cons.injEq, Topic.mk.injEq] at same
      rw [listed_lambda, listed_lambda]
      exact ⟨rfl, same.2.1.2⟩
  all_goals exact ⟨rfl, plain rfl rfl⟩

/-- If the topics tell the members of two lists apart, they tell the lists apart. -/
theorem eq_of_map_sheet_eq {lefts rights : List (Node Bytes)}
    (apart : forall item, item ∈ lefts -> forall other, other ∈ rights ->
      item.sheet id = other.sheet id -> item = other)
    (same : lefts.map (sheet id) = rights.map (sheet id)) : lefts = rights := by
  induction lefts generalizing rights with
  | nil => exact (List.map_eq_nil_iff.1 same.symm).symm
  | cons item items inductionHypothesis =>
      cases rights with
      | nil => cases same
      | cons other others =>
          rw [List.map_cons, List.map_cons, List.cons.injEq] at same
          have sameItem := apart item List.mem_cons_self other List.mem_cons_self same.1
          rw [sameItem, inductionHypothesis ?_ same.2]
          intro item member other alsoMember
          exact apart item (List.mem_cons_of_mem _ member) other (List.mem_cons_of_mem _ alsoMember)

theorem forall_shown_iff {holds : Node Symbol -> Prop} {node : Node Symbol} :
    (forall inner, inner ∈ node.shown -> holds inner) ↔
      holds node ∧ forall child, child ∈ node.listed ->
        forall inner, inner ∈ child.shown -> holds inner := by
  rw [shown_eq, List.forall_mem_cons, List.forall_mem_flatMap]

/-- A tree whose lines can be read back is determined by its topic. -/
theorem eq_of_sheet_eq (leftReadable : forall inner, inner ∈ left.shown -> inner.Readable)
    (rightReadable : forall inner, inner ∈ right.shown -> inner.Readable)
    (same : left.sheet id = right.sheet id) : left = right := by
  induction left using byChildren generalizing right with
  | step left inductionHypothesis =>
      rw [forall_shown_iff] at leftReadable rightReadable
      have sameLine : left.headline id = right.headline id := by
        rw [← label_sheet, same, label_sheet]
      have kinds := (leftReadable.1.heads_eq rightReadable.1 sameLine).1
      rcases listed_of_sheet_eq kinds same with ⟨sameNames, sameTopics⟩
      apply eq_of_line_eq leftReadable.1 rightReadable.1 sameLine sameNames
      apply eq_of_map_sheet_eq _ sameTopics
      intro item member other alsoMember
      exact inductionHypothesis item (mem_children_of_mem_listed member)
        (leftReadable.2 item member) (rightReadable.2 other alsoMember)

/-- All lines of a tree whose lines can be read back can stand in an outline. -/
theorem isText_of_readable (readable : forall inner, inner ∈ node.shown -> inner.Readable)
    (depth : Nat) :
    forall line, line ∈ node.outlineAt id depth -> OutlineLine.IsText line.text := by
  rw [outlineAt_eq, Topic.linesAt, List.forall_mem_map]
  intro row member
  have isLabel : row.2 ∈ node.topic.labelsAt depth := List.mem_map_of_mem member
  rcases List.mem_flatMap.1 ((labelsAt_topic_perm depth node).mem_iff.1 isLabel) with
    ⟨inner, inside, isEntry⟩
  exact (readable inner inside).isText isEntry

/-- A tree whose lines can be read back is determined by its outline. -/
theorem eq_of_outline_eq (leftReadable : forall inner, inner ∈ left.shown -> inner.Readable)
    (rightReadable : forall inner, inner ∈ right.shown -> inner.Readable)
    (same : left.outline id = right.outline id) : left = right := by
  have sameLines := OutlineLine.eq_of_render_eq (isText_of_readable leftReadable 0)
    (isText_of_readable rightReadable 0) same
  rw [outlineAt_eq_rowsAt_sheet, outlineAt_eq_rowsAt_sheet] at sameLines
  have injective : Function.Injective fun row : Nat × Bytes => OutlineLine.mk row.1 row.2 := by
    intro row other sameLine
    exact Prod.ext (OutlineLine.mk.inj sameLine).1 (OutlineLine.mk.inj sameLine).2
  have sameRows := List.map_injective_iff.2 injective sameLines
  exact eq_of_sheet_eq leftReadable rightReadable (Topic.eq_of_rowsAt_eq sameRows)

/-! ## Places -/

section Marks

variable (change : Mark -> Mark)

theorem kind_remark (node : Node Symbol) : (node.remark change).kind = node.kind := by
  cases node <;> rfl

theorem mark_remark (node : Node Symbol) : (node.remark change).mark = change node.mark := by
  cases node <;> rfl

theorem detail_remark (name : Symbol -> Bytes) (node : Node Symbol) :
    (node.remark change).detail name = node.detail name := by
  cases node with
  | quote mark datum => rw [remark, detail, detail, print_remark]
  | _ => rfl

theorem children_remark (node : Node Symbol) :
    (node.remark change).children = node.children.map (remark change) := by
  cases node with
  | list mark first others =>
      rw [remark, remarkSeries_eq, children_list, children_list, List.map_cons]
  | begin mark body => rw [remark, remarkSeries_eq, children_begin, children_begin]
  | scope mark kind bindings body =>
      rw [remark, remarkSeries_eq, remarkBindings_eq, children_scope, children_scope,
        List.map_append, List.map_map, List.map_map]
      rfl
  | lambda mark name params body => rw [remark, remarkSeries_eq, children_lambda, children_lambda]
  | recur mark args => rw [remark, remarkSeries_eq, children_recur, children_recur]
  | _ => rfl

theorem listed_remark (node : Node Symbol) :
    (node.remark change).listed = node.listed.map (remark change) := by
  cases node with
  | quote mark datum => rfl
  | _ => exact children_remark change _

theorem preorder_remark (node : Node Symbol) :
    (node.remark change).preorder = node.preorder.map (remark change) := by
  induction node using byChildren with
  | step node inductionHypothesis =>
      rw [preorder_eq, preorder_eq node, children_remark, List.map_cons, List.flatMap_map,
        List.map_flatMap]
      exact congrArg (List.cons _) (List.flatMap_congr inductionHypothesis)

end Marks

/-- The lines of a tree show tail flags but no places. -/
theorem sheet_remark {change : Mark -> Mark} (keeps : forall mark, (change mark).tail = mark.tail)
    (name : Symbol -> Bytes) (node : Node Symbol) :
    (node.remark change).sheet name = node.sheet name := by
  induction node using byChildren with
  | step node inductionHypothesis =>
      have series {items : List (Node Symbol)} (inside : forall item, item ∈ items ->
          item ∈ node.children) :
          (items.map (remark change)).map (sheet name) = items.map (sheet name) := by
        rw [List.map_map]
        exact List.map_congr_left fun item member => inductionHypothesis item (inside item member)
      have line : (node.remark change).headline name = node.headline name := by
        rw [headline, headline, caption, caption, kindName, kindName, kind_remark, mark_remark,
          keeps, detail_remark]
      have plain (single : node.entries = [.node node])
          (alsoSingle : (node.remark change).entries = [.node (node.remark change)]) :
          (node.remark change).sheet name = node.sheet name := by
        rw [sheet_eq_of_entries name alsoSingle, sheet_eq_of_entries name single, line,
          listed_remark, series fun item => mem_children_of_mem_listed]
      cases node with
      | scope mark kind bindings body =>
          rw [children_scope] at inductionHypothesis series
          have values : forall binding, binding ∈ bindings ->
              (binding.2.remark change).sheet name = binding.2.sheet name := fun binding member =>
            inductionHypothesis binding.2 (List.mem_append_left _ (List.mem_map_of_mem member))
          rw [remark, remarkSeries_eq, remarkBindings_eq] at line ⊢
          rw [sheet_scope, sheet_scope, line, List.map_map,
            series fun item => List.mem_append_right _]
          congr 2
          refine List.map_congr_left fun binding member => ?_
          rw [Function.comp, values binding member]
      | lambda mark label params body =>
          rw [children_lambda] at series
          rw [remark, remarkSeries_eq] at line ⊢
          rw [sheet_lambda, sheet_lambda, line, series fun item => id]
      | _ => exact plain rfl rfl

/-- Places have no part in an outline. -/
theorem outlineAt_unplaced (name : Symbol -> Bytes) (depth : Nat) (node : Node Symbol) :
    node.unplaced.outlineAt name depth = node.outlineAt name depth := by
  have keeps (mark : Mark) : (Mark.mk .start mark.tail).tail = mark.tail := rfl
  have sameTopics : node.unplaced.sheet name = node.sheet name := sheet_remark keeps name node
  rw [outlineAt_eq_rowsAt_sheet, outlineAt_eq_rowsAt_sheet, sameTopics]

theorem outline_unplaced (name : Symbol -> Bytes) (node : Node Symbol) :
    node.unplaced.outline name = node.outline name := by
  rw [outline, outline, outlineAt_unplaced]

/-- Trees that are equal but for their places have the same tail flags. -/
theorem tails_eq_of_unplaced_eq {left right : Node Symbol}
    (agree : left.unplaced = right.unplaced) :
    left.preorder.map (fun inner => inner.mark.tail) =
      right.preorder.map fun inner => inner.mark.tail := by
  have tails (node : Node Symbol) : node.preorder.map (fun inner => inner.mark.tail) =
      node.unplaced.preorder.map fun inner => inner.mark.tail := by
    rw [unplaced, preorder_remark, List.map_map]
    refine List.map_congr_left fun inner _ => ?_
    rw [Function.comp, mark_remark]
  rw [tails left, tails right, agree]

/-- The nodes of a chain are its pairs, its elements and its end. -/
theorem readable_chain {last : Node Bytes} {items : List (Node Bytes)}
    (unplaced : forall item, item ∈ items -> item.pos = .start)
    (itemsReadable : forall item, item ∈ items ->
      forall inner, inner ∈ item.shown -> inner.Readable)
    (lastReadable : forall inner, inner ∈ last.shown -> inner.Readable) :
    forall inner, inner ∈ (chain last items).shown -> inner.Readable := by
  induction items with
  | nil => exact lastReadable
  | cons item items inductionHypothesis =>
      rw [List.forall_mem_cons] at unplaced itemsReadable
      refine forall_shown_iff.2 ⟨congrArg Mark.plain unplaced.1, ?_⟩
      exact List.forall_mem_cons.2 ⟨itemsReadable.1, List.forall_mem_singleton.2
        (inductionHypothesis unplaced.2 itemsReadable.2)⟩

end Node

/-- The lines of a legible tree can be read back. -/
theorem Legible.readable {slot : Slot} {node : Node Bytes} (legible : Legible slot node) :
    forall inner, inner ∈ node.shown -> inner.Readable := by
  have isLabel {name : Bytes} (lexes : Lexes name (.symbol name)) : IsLabel name :=
    ⟨.symbol name, lexes, rfl⟩
  induction legible with
  | integer => exact List.forall_mem_singleton.2 rfl
  | char => exact List.forall_mem_singleton.2 rfl
  | string => exact List.forall_mem_singleton.2 rfl
  | boolean => exact List.forall_mem_singleton.2 rfl
  | empty => exact List.forall_mem_singleton.2 rfl
  | symbol lexes => exact List.forall_mem_singleton.2 ⟨rfl, isLabel lexes⟩
  | @word slot form =>
      exact List.forall_mem_singleton.2 ⟨rfl, .word (.head form), Lexes.word (.head form), rfl⟩
  | quote legible _ => exact List.forall_mem_singleton.2 ⟨rfl, legible⟩
  | list _ _ inductionHypothesis =>
      rw [Node.forall_shown_iff, Node.listed_list]
      exact ⟨rfl, inductionHypothesis⟩
  | dotted _ legible _ _ itemsReadable lastReadable =>
      rw [List.forall_mem_cons] at itemsReadable legible
      refine Node.forall_shown_iff.2 ⟨rfl, ?_⟩
      exact List.forall_mem_cons.2 ⟨itemsReadable.1, List.forall_mem_singleton.2
        (Node.readable_chain (fun item member => (legible.2 item member).pos_eq) itemsReadable.2
          lastReadable)⟩
  | emptyBegin => exact List.forall_mem_singleton.2 rfl
  | begin _ _ initReadable lastReadable =>
      rw [Node.forall_shown_iff, Node.listed_begin, List.forall_mem_append]
      exact ⟨rfl, initReadable, List.forall_mem_singleton.2 lastReadable⟩
  | define labelled _ inductionHypothesis =>
      refine Node.forall_shown_iff.2 ⟨⟨rfl, labelled⟩, ?_⟩
      exact List.forall_mem_singleton.2 inductionHypothesis
  | conditional _ _ _ testReadable consequentReadable alternativeReadable =>
      refine Node.forall_shown_iff.2 ⟨rfl, ?_⟩
      exact List.forall_mem_cons.2 ⟨testReadable, List.forall_mem_cons.2 ⟨consequentReadable,
        List.forall_mem_singleton.2 alternativeReadable⟩⟩
  | scope _ labelled _ _ _ valuesReadable initReadable lastReadable =>
      rw [Node.forall_shown_iff, Node.listed_scope, List.forall_mem_append, List.forall_mem_append,
        List.forall_mem_map]
      exact ⟨⟨rfl, fun binding member => isLabel (labelled binding member)⟩, valuesReadable,
        initReadable, List.forall_mem_singleton.2 lastReadable⟩
  | lambda named labelled _ _ _ initReadable lastReadable =>
      rw [Node.forall_shown_iff, Node.listed_lambda, List.forall_mem_append]
      exact ⟨⟨rfl, named, labelled⟩, initReadable, List.forall_mem_singleton.2 lastReadable⟩
  | recur _ inductionHypothesis =>
      rw [Node.forall_shown_iff, Node.listed_recur]
      exact ⟨rfl, inductionHypothesis⟩

namespace SymbolTable

namespace HasRead

variable {table : SymbolTable} {form other : Node SymbolId}

/-- Forms with the same outline are the same, and have the same tail flags. -/
theorem unplaced_eq_of_outline_eq (read : table.HasRead form) (alsoRead : table.HasRead other)
    (alike : form.outline table.nameOf = other.outline table.nameOf) :
    form.unplaced = other.unplaced := by
  apply read.unplaced_eq alsoRead
  apply Node.eq_of_outline_eq read.legible.2.readable alsoRead.legible.2.readable
  rw [Node.outline_unplaced, Node.outline_unplaced, Node.outline_map_name, Node.outline_map_name,
    alike]

/-- No line of the outline of a form is broken or begins with a space. -/
theorem isText (read : table.HasRead form) : forall row, row ∈ form.topic.rowsAt 0 ->
    OutlineLine.IsText (row.2.text table.nameOf) := by
  have texts := Node.isText_of_readable read.legible.2.readable 0
  rwa [Node.outlineAt_unplaced, Node.outlineAt_map, Function.id_comp, Node.outlineAt_eq,
    Topic.linesAt, List.forall_mem_map] at texts

end HasRead

/-- Outlines are faithful.  Forms that one table has seen have the same outline
exactly if they are the same and have the same tail flags.  The outline of a form
has a line for each node outside quoted data, for each name that such a node
binds and for the label of each body, and for nothing else; each line is
indented by twice its depth, and its text breaks no line and begins with no
space. -/
theorem outline_faithful (table : SymbolTable) :
    (forall left right, table.HasRead left -> table.HasRead right ->
      (left.outline table.nameOf = right.outline table.nameOf ↔
        left.same right = true ∧
          left.preorder.map (fun node => node.mark.tail) =
            right.preorder.map fun node => node.mark.tail)) ∧
    (forall form, table.HasRead form ->
      let rows := form.topic.rowsAt 0
      form.outline table.nameOf = rows.flatMap (fun row =>
        List.replicate (2 * row.1) ' '.toUInt8 ++ row.2.text table.nameOf ++ [newline]) ∧
      (forall row, row ∈ rows -> OutlineLine.IsText (row.2.text table.nameOf)) ∧
      (rows.map Prod.snd).Perm (form.shown.flatMap Node.entries) ∧
      (form.outline table.nameOf).count newline = (form.shown.flatMap Node.entries).length) := by
  constructor
  · intro left right read alsoRead
    constructor
    · intro alike
      have agree := read.unplaced_eq_of_outline_eq alsoRead alike
      exact ⟨(Node.same_iff_bare_eq left right).2 (Node.bare_eq_of_unplaced_eq agree),
        Node.tails_eq_of_unplaced_eq agree⟩
    · -- The flags of a form follow from what it says, so they come out alike by themselves.
      rintro ⟨same, _⟩
      have printed := Node.print_eq_of_bare_eq ((Node.same_iff_bare_eq left right).1 same)
        table.nameOf
      have agree := read.unplaced_eq_of_print_eq alsoRead printed
      rw [← Node.outline_unplaced, agree, Node.outline_unplaced]
  · intro form read rows
    have listed := form.labelsAt_topic_perm 0
    have isOutline : form.outline table.nameOf =
        (form.topic.linesAt table.nameOf 0).flatMap OutlineLine.render := by
      rw [Node.outline, Node.outlineAt_eq]
    have texts : forall line, line ∈ form.topic.linesAt table.nameOf 0 ->
        OutlineLine.IsText line.text :=
      List.forall_mem_map.2 read.isText
    refine ⟨?_, read.isText, listed, ?_⟩
    · rw [isOutline, Topic.linesAt, List.flatMap_map]
      rfl
    · rw [isOutline, OutlineLine.count_newline_render texts, ← listed.length_eq, Topic.linesAt,
        Topic.labelsAt, List.length_map, List.length_map]

/-- Symbols with the texts of remarks, labels and signs, read from two texts with
other places.  The outline has seven lines, of which only one has the remark. -/
theorem outline_faithful_imitating :
    Exists fun first => Exists fun second => Exists fun left => Exists fun right =>
      empty.prepare.parseForms (Bytes.ofText "(let ((= '[tail])) (body: =))") = .ok first ∧
      first.table.parseForms (Bytes.ofText "(let ((= (quote [tail]))) (body: =))") = .ok second ∧
      first.outcome = .ok [left] ∧ second.outcome = .ok [right] ∧
      left.outline second.table.nameOf =
        Bytes.ofText "let\n  = =\n    quote [tail]\n  body:\n    list [tail]\n" ++
          Bytes.ofText "      symbol body:\n      symbol =\n" ∧
      left.outline second.table.nameOf = right.outline second.table.nameOf ∧
      (left.same right = true ∧
        left.preorder.map (fun node => node.mark.tail) =
          right.preorder.map fun node => node.mark.tail) ∧
      (right.outline second.table.nameOf).count newline =
        (right.shown.flatMap Node.entries).length ∧
      (right.shown.flatMap Node.entries).length = 7 := by
  have equals (pos : Position) : Item (.code false) [⟨pos, .symbol (Bytes.ofText "=")⟩] _ :=
    .atom rfl
  have label (pos : Position) : Item (.code false) [⟨pos, .symbol (Bytes.ofText "body:")⟩] _ :=
    .atom rfl
  have datum (pos : Position) : Item .data [⟨pos, .symbol (Bytes.ofText "[tail]")⟩] _ := .atom rfl
  have call (opening word name closing : Position) :=
    @Item.list (.code true) opening closing ⟨_, _⟩ [⟨_, _⟩] rfl
      (List.forall_mem_cons.2 ⟨label word, List.forall_mem_singleton.2 (equals name)⟩)
  have ticked := @Item.ticked (.code false) ⟨1, 9, 9⟩ _ _ (datum ⟨1, 10, 10⟩)
  have quoted := @Item.quote false ⟨1, 9, 9⟩ ⟨1, 10, 10⟩ _ _ ⟨1, 22, 22⟩ (datum ⟨1, 16, 16⟩)
  have item := @Item.scope false .start ⟨1, 1, 1⟩ .once ⟨1, 5, 5⟩ ⟨1, 17, 17⟩ _ _ ⟨1, 28, 28⟩
    [⟨⟨1, 6, 6⟩, ⟨1, 7, 7⟩, Bytes.ofText "=", ⟨_, _⟩, ⟨1, 16, 16⟩⟩] []
    (List.forall_mem_singleton.2 ticked) nofun
    (call ⟨1, 19, 19⟩ ⟨1, 20, 20⟩ ⟨1, 26, 26⟩ ⟨1, 27, 27⟩)
  have other := @Item.scope false .start ⟨1, 1, 1⟩ .once ⟨1, 5, 5⟩ ⟨1, 24, 24⟩ _ _ ⟨1, 35, 35⟩
    [⟨⟨1, 6, 6⟩, ⟨1, 7, 7⟩, Bytes.ofText "=", ⟨_, _⟩, ⟨1, 23, 23⟩⟩] []
    (List.forall_mem_singleton.2 quoted) nofun
    (call ⟨1, 26, 26⟩ ⟨1, 27, 27⟩ ⟨1, 33, 33⟩ ⟨1, 34, 34⟩)
  have scanned : (Cursor.ofText (Bytes.ofText "(let ((= '[tail])) (body: =))")).Scans _
      ⟨⟨1, 29, 29⟩, []⟩ :=
    .cons rfl (.cons rfl (.cons rfl (.cons rfl (.cons rfl (.cons rfl (.cons rfl (.cons rfl
      (.cons rfl (.cons rfl (.cons rfl (.cons rfl (.cons rfl (.cons rfl (.nil _))))))))))))))
  have alsoScanned : (Cursor.ofText (Bytes.ofText "(let ((= (quote [tail]))) (body: =))")).Scans _
      ⟨⟨1, 36, 36⟩, []⟩ :=
    .cons rfl (.cons rfl (.cons rfl (.cons rfl (.cons rfl (.cons rfl (.cons rfl (.cons rfl
      (.cons rfl (.cons rfl (.cons rfl (.cons rfl (.cons rfl (.cons rfl (.cons rfl (.cons rfl
        (.nil _))))))))))))))))
  have parsed := parseForms_of_item (ready_prepare empty) item scanned rfl
  have alsoParsed (names : List Bytes) :=
    parseForms_of_item ((ready_insertAll _ names).trans (ready_prepare empty)) other alsoScanned rfl
  refine ⟨_, _, _, _, parsed, alsoParsed _, rfl, rfl, ?_, ?_, ?_, ?_, rfl⟩
  · decide +kernel
  · decide +kernel
  · refine ((outline_faithful _).1 _ _ (.of_single parsed rfl ?_)
      (.of_single (alsoParsed _) rfl List.prefix_rfl)).1 ?_
    · decide +kernel
    · decide +kernel
  · exact ((outline_faithful _).2 _ (.of_single (alsoParsed _) rfl List.prefix_rfl)).2.2.2

end SymbolTable

end TailLisp

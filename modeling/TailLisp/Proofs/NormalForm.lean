import TailLisp.Proofs.Driver
import TailLisp.Proofs.RoundTrip

namespace TailLisp

/-!
The output of the program as its input.

What the program prints is in normal form: read again in the same mode, it is
printed as it stands.  Each form takes one line, because nothing that the
printer writes breaks a line: atoms consist of constituents, and in strings and
characters the breaks are spelled out.  Since a newline ends an atom as well as
a blank does, the lines are scanned one by one, and each line is an item that
stands for the tree of its form.
-/

open ByteClass Grammar

/-! ## Texts on one line -/

/-- The text of an atom consists of constituents. -/
theorem Lexes.all_isConstituent {text : Bytes} {lexeme : Lexeme} (lexes : Lexes text lexeme)
    (isAtom : lexeme.isAtom = true) : text.all isConstituent = true := by
  rcases lexes with ⟨first, more, same, notBlank, noComment, taken⟩
  have read := taken [] Boundary.nil
  have outcome := congrArg Lexing.outcome read
  have isLexeme := (Lexing.isLexeme_of_ok notBlank noComment outcome).1
  rw [read] at isLexeme
  rw [same]
  exact isLexeme.all_isConstituent isAtom

theorem IsLabel.all_isConstituent {name : Bytes} (isLabel : IsLabel name) :
    name.all isConstituent = true := by
  rcases isLabel with ⟨lexeme, lexes, named⟩
  cases lexeme with
  | word keyword => exact lexes.all_isConstituent rfl
  | symbol label => exact lexes.all_isConstituent rfl
  | _ => cases named

/-- The text breaks no line. -/
def OneLine (text : Bytes) : Prop :=
  forall byte, byte ∈ text -> byte ≠ newline ∧ byte ≠ '\r'.toUInt8

instance (text : Bytes) : Decidable (OneLine text) :=
  List.decidableBAll (fun byte => byte ≠ newline ∧ byte ≠ '\r'.toUInt8) text

namespace OneLine

theorem nil : OneLine [] :=
  nofun

@[simp] theorem cons_iff {byte : UInt8} {text : Bytes} :
    OneLine (byte :: text) ↔ (byte ≠ newline ∧ byte ≠ '\r'.toUInt8) ∧ OneLine text :=
  List.forall_mem_cons

@[simp] theorem append_iff {text other : Bytes} :
    OneLine (text ++ other) ↔ OneLine text ∧ OneLine other :=
  List.forall_mem_append

theorem flatMap {Thing : Type} {text : Thing -> Bytes} {things : List Thing}
    (lines : forall thing, thing ∈ things -> OneLine (text thing)) :
    OneLine (things.flatMap text) := by
  intro byte member
  rcases List.mem_flatMap.1 member with ⟨thing, inside, member⟩
  exact lines thing inside byte member

theorem of_constituents {text : Bytes} (constituents : text.all isConstituent = true) :
    OneLine text := by
  intro byte member
  have constituent := List.all_eq_true.1 constituents byte member
  constructor
  · rintro rfl
    revert constituent
    decide
  · rintro rfl
    revert constituent
    decide

theorem parenthesized {text : Bytes} (line : OneLine text) : OneLine (Node.parenthesized text) :=
  append_iff.2 ⟨cons_iff.2 ⟨by decide, line⟩, by decide⟩

/-- Texts in a row, each with a space before it. -/
theorem series {Thing : Type} {text : Thing -> Bytes} {things : List Thing}
    (lines : forall thing, thing ∈ things -> OneLine (text thing)) :
    OneLine (things.flatMap fun thing => Bytes.ofText " " ++ text thing) :=
  flatMap fun thing member => append_iff.2 ⟨by decide, lines thing member⟩

/-- Texts in a row with spaces between them. -/
theorem spaced {texts : List Bytes} (lines : forall text, text ∈ texts -> OneLine text) :
    OneLine (Bytes.spaced texts) := by
  cases texts with
  | nil => exact nil
  | cons text texts =>
      rcases List.forall_mem_cons.1 lines with ⟨line, others⟩
      rw [Spells.spaced_cons]
      exact append_iff.2 ⟨line, series others⟩

theorem printSeries {nodes : List (Node Bytes)}
    (lines : forall node, node ∈ nodes -> OneLine (node.print id)) :
    OneLine (Node.printSeries id nodes) := by
  rw [Node.printSeries_eq]
  exact series lines

/-- The expressions of a body, the last one apart. -/
theorem body {init : List (Node Bytes)} {last : Node Bytes}
    (initLines : forall node, node ∈ init -> OneLine (node.print id))
    (lastLine : OneLine (last.print id)) : OneLine (Node.printSeries id (init ++ [last])) :=
  printSeries (List.forall_mem_append.2 ⟨initLines, List.forall_mem_singleton.2 lastLine⟩)

theorem of_lexes {text : Bytes} {lexeme : Lexeme} (lexes : Lexes text lexeme)
    (isAtom : lexeme.isAtom = true) : OneLine text :=
  of_constituents (lexes.all_isConstituent isAtom)

theorem of_isLabel {name : Bytes} (isLabel : IsLabel name) : OneLine name :=
  of_constituents isLabel.all_isConstituent

/-- Line breaks in a string are spelled out. -/
theorem encodeByte (byte : UInt8) : OneLine (Escape.encodeByte byte) := by
  unfold Escape.encodeByte
  split
  · next special =>
      rw [Bool.or_eq_true, decide_eq_true_eq, decide_eq_true_eq] at special
      rcases special with same | same <;> rw [same] <;> decide
  split
  · decide
  next notNewline =>
  split
  · decide
  split
  · decide
  next notReturn =>
  split
  · have digits : forall value, value < 16 -> OneLine [Escape.hexDigit value] := by decide
    have high := digits (byte.toNat / 16) (Escape.upper_lt byte)
    have low := digits (byte.toNat % 16) (Nat.mod_lt _ (by decide))
    exact cons_iff.2 ⟨by decide, cons_iff.2 ⟨by decide, append_iff.2 ⟨high, low⟩⟩⟩
  · exact cons_iff.2 ⟨⟨notNewline, notReturn⟩, nil⟩

theorem printString (contents : Bytes) : OneLine (Node.printString contents) := by
  have inside : OneLine (Escape.encode contents) := flatMap fun byte _ => encodeByte byte
  exact append_iff.2 ⟨cons_iff.2 ⟨by decide, inside⟩, by decide⟩

theorem printChar (char : UInt8) : OneLine (Node.printChar char) := by
  have spelled : OneLine (CharName.spelling char) := by
    unfold CharName.spelling
    split
    · next entry found =>
        have names : forall entry, entry ∈ CharName.all -> OneLine entry.1 := by decide
        exact names entry (List.mem_of_find?_eq_some found)
    · next notNamed =>
        -- The bytes that break a line have names.
        have unnamed := List.find?_eq_none.1 notNamed
        simp only [CharName.all, List.forall_mem_cons, decide_eq_true_eq] at unnamed
        exact cons_iff.2 ⟨⟨Ne.symm unnamed.2.1, Ne.symm unnamed.2.2.2.1⟩, nil⟩
  exact cons_iff.2 ⟨by decide, cons_iff.2 ⟨by decide, spelled⟩⟩

end OneLine

/-- A legible tree is printed on one line. -/
theorem Legible.oneLine {slot : Slot} {node : Node Bytes} (legible : Legible slot node) :
    OneLine (node.print id) := by
  induction legible with
  | integer => exact .of_lexes (Lexes.integer _) rfl
  | char => exact .printChar _
  | string => exact .printString _
  | @boolean slot value => exact .of_lexes (Lexes.word (.truth value)) rfl
  | symbol lexes => exact .of_lexes lexes rfl
  | @word slot form => exact .of_lexes (Lexes.word (.head form)) rfl
  | empty => exact .parenthesized .nil
  | list leads _ lines =>
      rcases List.forall_mem_cons.1 lines with ⟨first, others⟩
      exact .parenthesized (OneLine.append_iff.2 ⟨first, .printSeries others⟩)
  | dotted leads _ _ single lines lastLine =>
      rcases List.forall_mem_cons.1 lines with ⟨first, others⟩
      rw [Node.print_dotted id _ _ single]
      apply OneLine.parenthesized
      simp only [OneLine.append_iff]
      exact ⟨first, .printSeries others, by decide, by decide, by decide, lastLine⟩
  | quote _ line =>
      exact .parenthesized (OneLine.append_iff.2 ⟨by decide, line⟩)
  | emptyBegin => exact .parenthesized (by decide)
  | begin _ _ initLines lastLine =>
      exact .parenthesized (OneLine.append_iff.2 ⟨by decide, .body initLines lastLine⟩)
  | define isLabel _ line =>
      apply OneLine.parenthesized
      simp only [OneLine.append_iff]
      exact ⟨⟨⟨by decide, .of_isLabel isLabel⟩, by decide⟩, line⟩
  | conditional _ _ _ testLine consequentLine alternativeLine =>
      apply OneLine.parenthesized
      simp only [OneLine.append_iff]
      exact ⟨⟨⟨⟨⟨by decide, testLine⟩, by decide⟩, consequentLine⟩, by decide⟩, alternativeLine⟩
  | @scope tail kind init last bindings loops names _ _ _ valueLines initLines lastLine =>
      have word : OneLine kind.name := by cases kind <;> decide
      have bindingLines : forall text, text ∈ Node.printBindings id bindings -> OneLine text := by
        rw [Node.printBindings_eq, List.forall_mem_map]
        intro binding member
        apply OneLine.parenthesized
        simp only [OneLine.append_iff]
        exact ⟨⟨.of_lexes (names binding member) rfl, by decide⟩, valueLines binding member⟩
      apply OneLine.parenthesized
      simp only [OneLine.append_iff]
      exact ⟨⟨⟨word, by decide⟩, .parenthesized (.spaced bindingLines)⟩,
        .body initLines lastLine⟩
  | @lambda tail name init last params isLabel names distinct _ _ initLines lastLine =>
      have label : OneLine (Node.printLambdaName name) := by
        cases name with
        | none => exact .nil
        | some given => exact OneLine.append_iff.2 ⟨.of_isLabel (isLabel given rfl), by decide⟩
      have paramLines : forall text, text ∈ params.map id -> OneLine text :=
        List.forall_mem_map.2 fun param member => .of_lexes (names param member) rfl
      apply OneLine.parenthesized
      simp only [OneLine.append_iff]
      exact ⟨⟨⟨by decide, label⟩, .parenthesized (.spaced paramLines)⟩,
        .body initLines lastLine⟩
  | recur _ lines =>
      exact .parenthesized (OneLine.append_iff.2 ⟨by decide, .printSeries lines⟩)

/-! ## Reading lines -/

/-- Each text with a newline behind it. -/
def Bytes.lines (texts : List Bytes) : Bytes :=
  texts.flatMap fun text => text ++ [newline]

/-- Lines of legible trees are scanned as a row of items, also behind a gap. -/
theorem Cursor.scans_lines {slot : Slot} {nodes : List (Node Bytes)}
    (legible : forall node, node ∈ nodes -> Legible slot node) {gap : Bytes}
    (isGap : Blank.Gap gap) (pos : Position) :
    Exists fun tokens => Exists fun ending =>
      Scans ⟨pos, gap ++ Bytes.lines (nodes.map (Node.print id))⟩ tokens ending ∧
      Row (Reads slot) nodes tokens ∧ ending.skipBlank.atEnd = true := by
  induction nodes generalizing gap pos with
  | nil =>
      refine ⟨[], _, .nil _, .nil, ?_⟩
      rw [atEnd_skipBlank_iff_lastGap, List.map_nil, Bytes.lines, List.flatMap_nil, List.append_nil]
      exact .closed isGap
  | cons node nodes inductionHypothesis =>
      rcases List.forall_mem_cons.1 legible with ⟨first, others⟩
      let rest := Bytes.lines (nodes.map (Node.print id))
      have lineBreak : Blank.Gap [newline] := .blank (by decide) .nil
      rcases inductionHypothesis others lineBreak ((pos.after gap).after (node.print id)) with
        ⟨later, ending, scannedLater, row, ended⟩
      rcases first.spells (pos.after gap) (newline :: rest) (.cons rest (by decide)) with
        ⟨tokens, scanned, reads⟩
      refine ⟨tokens ++ later, ending, ?_, .cons reads row, ended⟩
      have nonempty := Reads.ne_nil _ _ _ reads
      rw [← scans_skipBlank nonempty, ← skipBlank_of_gap isGap, scans_skipBlank nonempty] at scanned
      have split : Bytes.lines ((node :: nodes).map (Node.print id)) =
          node.print id ++ newline :: rest := by
        rw [List.map_cons, Bytes.lines, List.flatMap_cons, List.append_assoc]
        rfl
      rw [split]
      exact scanned.append scannedLater

/-- Lines of legible trees consist of items that stand for them. -/
theorem Cursor.exists_parts_of_lines {slot : Slot} {nodes : List (Node Bytes)}
    (legible : forall node, node ∈ nodes -> Legible slot node) :
    Exists fun parts : List Passage => Exists fun ending : Cursor =>
      (forall part, part ∈ parts -> Item slot part.tokens part.tree) ∧
        (ofText (Bytes.lines (nodes.map (Node.print id)))).Scans
          (parts.flatMap Passage.tokens) ending ∧
        ending.skipBlank.atEnd = true ∧
          parts.map (fun part => part.tree.written) = nodes := by
  rcases scans_lines legible .nil .start with ⟨tokens, ending, scanned, row, ended⟩
  rcases Reads.parts_of_row row with ⟨parts, items, sameNodes, sameTokens⟩
  rw [sameTokens] at scanned
  exact ⟨parts, ending, items, scanned, ended, sameNodes.symm⟩

/-! ## Successful runs -/

theorem Node.print_written (tree : Tree) :
    tree.written.print id = (tree.map Reference.spelling).print id :=
  print_remark _ _ _

/-- Nodes with the names of some trees are printed as these trees are. -/
theorem Node.map_print_of_names {Thing : Type} {nodes : List Thing} {names : Thing -> Node Bytes}
    {parts : List Passage}
    (named : nodes.map names = parts.map fun part => part.tree.map Reference.spelling) :
    nodes.map (fun node => (names node).print id) =
      parts.map fun part => part.tree.written.print id := by
  have same := congrArg (List.map (print id)) named
  rw [List.map_map, List.map_map] at same
  simp only [print_written]
  exact same

namespace CommandLine

namespace Options

/-- The slot of the items that are read. -/
def slot (options : Options) : Slot :=
  if options.data then .data else .code false

theorem slot_of_program {options : Options} (isProgram : options.data = false) :
    options.slot = .code false := by
  rw [slot, isProgram]
  rfl

theorem slot_of_data {options : Options} (isData : options.data = true) : options.slot = .data := by
  rw [slot, isData]
  rfl

/-- The text consists of items of the mode.  A program has at least one. -/
structure Consists (options : Options) (text : Bytes) (parts : List Passage) : Prop where
  items : forall part, part ∈ parts -> Item options.slot part.tokens part.tree
  nonempty : options.data = false -> parts ≠ []
  scanned : Exists fun ending => (Cursor.ofText text).Scans (parts.flatMap Passage.tokens) ending ∧
    ending.skipBlank.atEnd = true

namespace Consists

variable {options : Options} {text : Bytes} {parts : List Passage}

theorem legible (consists : options.Consists text parts) :
    forall part, part ∈ parts -> Legible options.slot part.tree.written := by
  intro part member
  rcases consists.scanned with ⟨ending, scanned, _⟩
  apply (consists.items part member).legible
  intro token inside
  exact scanned.finds token (List.mem_flatMap.2 ⟨part, member, inside⟩)

/-- The items of a program are its forms. -/
theorem program (consists : options.Consists text parts) (isProgram : options.data = false) :
    Exists fun read => Exists fun forms => SymbolTable.empty.prepare.parseForms text = .ok read ∧
      read.outcome = .ok forms ∧
        forms.map (Node.print read.table.nameOf) =
          parts.map fun part => part.tree.written.print id := by
  rcases consists with ⟨items, nonempty, ending, scanned, ended⟩
  rw [slot_of_program isProgram] at items
  have ready : SymbolTable.empty.prepare.ready = true := SymbolTable.ready_prepare _
  refine ⟨_, _, SymbolTable.parseForms_of_parts ready (nonempty isProgram) items scanned ended, rfl, ?_⟩
  rw [← Node.map_print_of_names (SymbolTable.map_nameOf_forms ready parts)]
  exact List.map_congr_left fun form _ => (Node.print_map_name _ form).symm

/-- The items of data are what is read one by one. -/
theorem data (consists : options.Consists text parts) (isData : options.data = true) :
    let each := (Session.start SymbolTable.empty.prepare 1 0 text).readEach .data
    each.2 = none ∧ each.1.map (fun entry => entry.2.print entry.1.nameOf) =
      parts.map fun part => part.tree.written.print id := by
  rcases consists with ⟨items, _, ending, scanned, ended⟩
  rw [slot_of_data isData] at items
  intro each
  by_cases nothing : parts = []
  · rw [nothing] at scanned ⊢
    cases scanned
    have blank : each = ([], none) := Session.readEach_of_atEnd ended
    rw [blank]
    exact ⟨rfl, rfl⟩
  · have more := scanned.not_atEnd (flatMap_tokens_ne_nil nothing items)
    rcases Session.readEach_start .data more with ⟨sameFault, sameNames⟩
    rw [Reader.readAll_of_parts nothing items scanned ended] at sameFault sameNames
    refine ⟨sameFault, ?_⟩
    rw [List.map_map] at sameNames
    rw [← Node.map_print_of_names sameNames]
    exact List.map_congr_left fun entry _ => (Node.print_map_name _ entry.2).symm

/-- The lines of a text that consists of items consist of items with the same
text. -/
theorem lines (consists : options.Consists text parts) {other : Options}
    (sameMode : other.data = options.data) :
    let texts := parts.map fun part => part.tree.written.print id
    Exists fun again => other.Consists (Bytes.lines texts) again ∧
      again.map (fun part => part.tree.written.print id) = texts := by
  intro texts
  have legible : forall node, node ∈ parts.map (fun part => part.tree.written) ->
      Legible other.slot node := by
    rw [slot, sameMode]
    exact List.forall_mem_map.2 consists.legible
  rcases Cursor.exists_parts_of_lines legible with
    ⟨again, ending, items, scanned, ended, sameNodes⟩
  have sameTexts := congrArg (List.map (Node.print id)) sameNodes
  rw [List.map_map, List.map_map] at sameTexts
  rw [List.map_map] at scanned
  refine ⟨again, ⟨items, ?_, ending, scanned, ended⟩, sameTexts⟩
  intro isProgram nothing
  rw [nothing] at sameNodes
  exact consists.nonempty (sameMode.symm.trans isProgram) (List.map_eq_nil_iff.1 sameNodes.symm)

end Consists

/-- The forms of a list are shown line by line. -/
theorem flatMap_rendering_of_plain {options : Options} (plain : options.outline = false)
    (entries : List (SymbolTable × Node SymbolId)) :
    (entries.map fun entry => entry.2.map entry.1.nameOf).flatMap options.rendering =
      Bytes.lines (entries.map fun entry => entry.2.print entry.1.nameOf) := by
  rw [Bytes.lines, List.flatMap_map, List.flatMap_map]
  apply List.flatMap_congr
  intro entry _
  rw [rendering, plain, Node.print_map_name entry.1.nameOf]
  rfl

namespace Contract

variable {options : Options} {text : Bytes} {result : Result}

/-- A run succeeds only on a text that consists of items. -/
theorem exists_consists (contract : options.Contract text result) (succeeded : result.status = 0) :
    Exists fun parts => options.Consists text parts := by
  cases mode : options.data with
  | false =>
      rcases contract.program mode with ⟨read, parsed, _, rejected⟩
      cases outcome : read.outcome with
      | error fault =>
          rw [rejected fault outcome] at succeeded
          cases succeeded
      | ok forms =>
          rcases SymbolTable.parts_of_parseForms parsed outcome with
            ⟨_, parts, ending, nonempty, items, scanned, ended⟩
          rw [← slot_of_program mode] at items
          exact ⟨parts, items, fun _ => nonempty, ending, scanned, ended⟩
  | true =>
      have isData : forall parts : List Passage, options.data = false -> parts ≠ [] := by
        intro parts isProgram
        cases mode.symm.trans isProgram
      by_cases isBlank : Blank.LastGap text
      · have ended := (Cursor.ofText text).atEnd_skipBlank_iff_lastGap.2 isBlank
        exact ⟨[], nofun, isData [], _, .nil _, ended⟩
      · have more := mt (Cursor.ofText text).atEnd_skipBlank_iff_lastGap.1 isBlank
        rw [contract.data mode isBlank] at succeeded
        dsimp only at succeeded
        rw [(Session.readEach_start .data more).1] at succeeded
        have faultless : (Reader.readAll .data (.ofText text)).fault = none := by
          cases found : (Reader.readAll .data (.ofText text)).fault with
          | none => rfl
          | some fault =>
              rw [found] at succeeded
              cases succeeded
        rcases Reader.parts_of_readAll faultless with ⟨parts, ending, _, items, scanned, ended⟩
        rw [← slot_of_data mode] at items
        exact ⟨parts, items, isData parts, ending, scanned, ended⟩

/-- A run on a text that consists of items succeeds and prints a line for each. -/
theorem output_of_consists (contract : options.Contract text result)
    (plain : options.outline = false) {parts : List Passage}
    (consists : options.Consists text parts) :
    result.status = 0 ∧
      result.output = Bytes.lines (parts.map fun part => part.tree.written.print id) := by
  cases mode : options.data with
  | false =>
      rcases contract.program mode with ⟨read, parsed, accepted, _⟩
      rcases consists.program mode with ⟨again, forms, alsoParsed, done, printed⟩
      cases parsed.symm.trans alsoParsed
      have lines := flatMap_rendering_of_plain plain (forms.map fun form => (read.table, form))
      rw [List.map_map, List.map_map] at lines
      rw [accepted forms done, ← printed]
      exact ⟨rfl, lines⟩
  | true =>
      rcases consists.data mode with ⟨faultless, printed⟩
      rw [← printed, ← flatMap_rendering_of_plain plain]
      by_cases isBlank : Blank.LastGap text
      · have ended := (Cursor.ofText text).atEnd_skipBlank_iff_lastGap.2 isBlank
        rw [contract.blank mode isBlank,
          @Session.readEach_of_atEnd (.start SymbolTable.empty.prepare 1 0 text) _ ended]
        exact ⟨rfl, rfl⟩
      · rw [contract.data mode isBlank]
        dsimp only
        rw [faultless]
        exact ⟨rfl, rfl⟩

end Contract

end Options

/-- The output of a successful run is in normal form.  It has one line for each
form that was read, and no form breaks its line; and a run in the same mode on
the output succeeds and prints it unchanged. -/
theorem request_result_normal_form {arguments : List Bytes} {options : Options}
    {input text : Bytes} {contents? : Bytes -> Option Bytes}
    (accepted : request arguments = .run options)
    (readable : options.source? input contents? = some text) (plain : options.outline = false)
    (succeeded : ((request arguments).result input contents?).status = 0) :
    let output := ((request arguments).result input contents?).output
    (Exists fun lines : List Bytes =>
      output = lines.flatMap (fun line => line ++ [newline]) ∧
      (forall line, line ∈ lines -> newline ∉ line ∧ '\r'.toUInt8 ∉ line) ∧
      (options.data = false -> Exists fun read => Exists fun forms =>
        SymbolTable.empty.prepare.parseForms text = .ok read ∧ read.outcome = .ok forms ∧
          lines = forms.map (Node.print read.table.nameOf)) ∧
      (options.data = true ->
        let each := (Session.start SymbolTable.empty.prepare 1 0 text).readEach .data
        each.2 = none ∧ lines = each.1.map fun entry => entry.2.print entry.1.nameOf)) ∧
    (forall (others : List Bytes) (other : Options) (otherInput : Bytes)
        (otherContents? : Bytes -> Option Bytes),
      request others = .run other -> other.source? otherInput otherContents? = some output ->
        other.data = options.data -> other.outline = false ->
          ((request others).result otherInput otherContents?).status = 0 ∧
            ((request others).result otherInput otherContents?).output = output) := by
  rw [accepted] at succeeded ⊢
  intro output
  have contract := options.run_contract readable
  rcases contract.exists_consists succeeded with ⟨parts, consists⟩
  have isOutput : output = Bytes.lines (parts.map fun part => part.tree.written.print id) :=
    (contract.output_of_consists plain consists).2
  constructor
  · refine ⟨_, isOutput, ?_, ?_, ?_⟩
    · rw [List.forall_mem_map]
      intro part member
      have line := (consists.legible part member).oneLine
      exact ⟨fun inside => (line _ inside).1 rfl, fun inside => (line _ inside).2 rfl⟩
    · intro isProgram
      rcases consists.program isProgram with ⟨read, forms, parsed, done, printed⟩
      exact ⟨read, forms, parsed, done, printed.symm⟩
    · intro isData
      rcases consists.data isData with ⟨faultless, printed⟩
      exact ⟨faultless, printed.symm⟩
  · intro others other otherInput otherContents? otherAccepted otherReadable sameMode otherPlain
    rw [otherAccepted]
    rcases consists.lines sameMode with ⟨readAgain, again, sameTexts⟩
    rw [← isOutput] at again
    rcases (other.run_contract otherReadable).output_of_consists otherPlain again with
      ⟨status, printed⟩
    exact ⟨status, printed.trans ((congrArg Bytes.lines sameTexts).trans isOutput.symm)⟩

/-- Data with a line break in a string and a comment behind it. -/
theorem request_result_normal_form_string :
    let text := Bytes.ofText "'x \"\n\" ; two data"
    let result := (request [Bytes.ofText "-d"]).result text fun _ => none
    let again := (request [Bytes.ofText "-", Bytes.ofText "-d"]).result result.output fun _ => none
    result.output = Bytes.ofText "(quote x)\n\"\\n\"\n" ∧ again.status = 0 ∧
      again.output = result.output := by
  intro text result again
  have succeeded : result.status = 0 := by
    decide +kernel
  have printed : result.output = Bytes.ofText "(quote x)\n\"\\n\"\n" := by
    decide +kernel
  have accepted : request [Bytes.ofText "-d"] = .run { Options.default with data := true } := rfl
  have alsoAccepted : request [Bytes.ofText "-", Bytes.ofText "-d"] =
      .run { Options.default with data := true } :=
    rfl
  have normal := @request_result_normal_form _ _ text _ (fun _ => none) accepted rfl rfl succeeded
  exact ⟨printed, normal.2 _ _ result.output (fun _ => none) alsoAccepted rfl rfl rfl⟩

end CommandLine

end TailLisp

import TailLisp.Proofs.Acceptance
import TailLisp.Proofs.Rereading

namespace TailLisp

/-!
Round trips.

Printing a tree and reading the text gives the tree back.  For the forms of a
program this holds whatever the program was; for data it holds of every tree
that can be built, read or not, as long as the names of its symbols are names
that the scanner takes for themselves.  Reading back enters no name into the
symbol table, because every name of the text is held already.
-/

open Grammar

namespace Node

variable {Symbol : Type}

theorem print_remark (change : Mark -> Mark) (name : Symbol -> Bytes) (node : Node Symbol) :
    (node.remark change).print name = node.print name :=
  printAt_remark change name false node

theorem unplaced_bare (node : Node Symbol) : node.bare.unplaced = node.bare :=
  remark_remark _ _ node

theorem bare_bare (node : Node Symbol) : node.bare.bare = node.bare :=
  remark_remark _ _ node

/-- Trees that agree but for their places have the same text. -/
theorem print_eq_of_unplaced_eq {left right : Node Symbol} (agree : left.unplaced = right.unplaced)
    (name : Symbol -> Bytes) : left.print name = right.print name := by
  have same := congrArg (print name) agree
  rw [unplaced, unplaced, print_remark, print_remark] at same
  exact same

end Node

namespace SymbolTable

/-- The names that reading a printed tree brings are those of the tree. -/
theorem holds_of_written {table : SymbolTable} {node : Node SymbolId} {tree : Tree}
    (given : forall id, id ∈ node.symbols -> id < table.size)
    (written : tree.written = (node.map table.nameOf).unplaced) : table.Holds tree := by
  intro name arrives
  rcases List.mem_filterMap.1 arrives with ⟨reference, occurs, arriving⟩
  have spelled : name ∈ tree.written.symbols := by
    rw [Node.written, Node.unplaced, Node.symbols_remark, Node.symbols_map]
    cases reference with
    | named label =>
        cases arriving
        exact List.mem_map_of_mem occurs
    | reserved form => cases arriving
  rw [written, Node.unplaced, Node.symbols_remark, Node.symbols_map] at spelled
  rcases List.mem_map.1 spelled with ⟨id, inNode, same⟩
  rw [← same]
  exact nameOf_mem (given id inNode)

/-- A tree of ids whose names are legible is printed as an item; reading the
item leaves the table as it is and gives the tree back. -/
theorem item_of_legible {table : SymbolTable} {slot : Slot} {node : Node SymbolId}
    (ready : table.ready = true) (given : forall id, id ∈ node.symbols -> id < table.size)
    (legible : Legible slot (node.map table.nameOf).unplaced) :
    Exists fun tokens => Exists fun tree => Exists fun ending =>
      (Cursor.ofText (node.print table.nameOf)).Scans tokens ending ∧
        ending.skipBlank.atEnd = true ∧ Item slot tokens tree ∧
          table.insertAll tree.names = table ∧
            (tree.map table.resolve).unplaced = node.unplaced := by
  have text : (node.map table.nameOf).unplaced.print id = node.print table.nameOf := by
    rw [Node.unplaced, Node.print_remark, Node.print, Node.printAt_map]
    rfl
  rcases legible.spells .start [] Boundary.nil with ⟨tokens, scanned, tree, item, written⟩
  rw [text, List.append_nil] at scanned
  have held := holds_of_written given written
  refine ⟨tokens, tree, _, scanned, rfl, item, insertAll_of_held held, ?_⟩
  have resolved : tree.map table.resolve = (tree.map Reference.spelling).map table.idOf := by
    rw [Node.map_map]
    exact Node.map_congr fun reference _ => resolve_eq_idOf ready reference
  calc (tree.map table.resolve).unplaced
      = tree.written.map table.idOf := by
        rw [resolved, Node.unplaced, Node.remark_map]
        rfl
    _ = ((node.map table.nameOf).map table.idOf).unplaced := by
        rw [written, Node.unplaced, Node.unplaced, ← Node.remark_map]
    _ = node.unplaced := by
        rw [map_idOf_nameOf given]

/-! ## Programs -/

/-- A form of a program that was read can be printed and read again.  The text
is a program of one form, which is the same form with the same tail flags at
all places and the same text; and the symbol table does not change. -/
theorem parseForms_print {table : SymbolTable} {text : Bytes}
    {result : Interned (List (Node SymbolId))} {forms : List (Node SymbolId)}
    {form : Node SymbolId} (parsed : table.parseForms text = .ok result)
    (done : result.outcome = .ok forms) (member : form ∈ forms) :
    Exists fun again => Exists fun ending =>
      result.table.parseForms (form.print result.table.nameOf) =
        .ok { outcome := .ok [again], table := result.table, cursor := ending } ∧
      form.same again = true ∧ again.unplaced = form.unplaced ∧
        again.print result.table.nameOf = form.print result.table.nameOf := by
  rcases item_of_parseForms parsed done member with ⟨ready, tokens, tree, item, found, held, same⟩
  have given : forall id, id ∈ form.symbols -> id < result.table.size := by
    rw [same]
    exact held.resolve_lt_size ready
  have legible : Legible (.code false) (form.map result.table.nameOf).unplaced := by
    rw [same, map_nameOf_resolve held ready]
    exact item.legible found
  rcases item_of_legible ready given legible with
    ⟨readTokens, readTree, ending, scanned, ended, readItem, kept, agree⟩
  have single : forall part, part ∈ [Passage.mk readTokens readTree] ->
      Item (.code false) part.tokens part.tree :=
    List.forall_mem_singleton.2 readItem
  have whole : (Cursor.ofText (form.print result.table.nameOf)).Scans
      ([Passage.mk readTokens readTree].flatMap Passage.tokens) ending := by
    rw [List.flatMap_singleton]
    exact scanned
  have again := parseForms_of_parts ready (List.cons_ne_nil _ _) single whole ended
  simp only [List.flatMap_singleton, kept, List.map_singleton] at again
  refine ⟨_, _, again, ?_, agree, Node.print_eq_of_unplaced_eq agree _⟩
  rw [Node.same_iff_bare_eq]
  exact Node.bare_eq_of_unplaced_eq agree.symm

/-- A quoted chain of pairs.  It is written with two dots and printed with one. -/
theorem parseForms_print_chain :
    Exists fun result => Exists fun form => Exists fun again => Exists fun ending =>
      empty.prepare.parseForms (Bytes.ofText "'(a . (b . c))") = .ok result ∧
      result.outcome = .ok [form] ∧
      form.print result.table.nameOf = Bytes.ofText "(quote (a b . c))" ∧
      result.table.parseForms (form.print result.table.nameOf) =
        .ok { outcome := .ok [again], table := result.table, cursor := ending } ∧
      form.same again = true ∧ again.unplaced = form.unplaced ∧
        again.print result.table.nameOf = form.print result.table.nameOf := by
  have scanned : (Cursor.ofText (Bytes.ofText "'(a . (b . c))")).Scans _ ⟨⟨1, 14, 14⟩, []⟩ :=
    .cons rfl (.cons rfl (.cons rfl (.cons rfl (.cons rfl (.cons rfl (.cons rfl (.cons rfl
      (.cons rfl (.cons rfl (.nil _))))))))))
  have atom (pos : Position) (name : Bytes) :
      Item .data [⟨pos, .symbol name⟩] (.symbol (.plain pos) (.named name)) := .atom rfl
  have inner : Item .data _ _ :=
    @Item.dotted .data ⟨1, 6, 6⟩ ⟨1, 9, 9⟩ _ _ ⟨1, 12, 12⟩ ⟨_, _⟩ [] rfl
      (List.forall_mem_singleton.2 (atom ⟨1, 7, 7⟩ (Bytes.ofText "b")))
      (atom ⟨1, 11, 11⟩ (Bytes.ofText "c"))
  have outer : Item .data _ _ :=
    @Item.dotted .data ⟨1, 1, 1⟩ ⟨1, 4, 4⟩ _ _ ⟨1, 13, 13⟩ ⟨_, _⟩ [] rfl
      (List.forall_mem_singleton.2 (atom ⟨1, 2, 2⟩ (Bytes.ofText "a"))) inner
  have quoted : Item (.code false) _ _ := @Item.ticked (.code false) ⟨1, 0, 0⟩ _ _ outer
  have single : forall part, part ∈ [Passage.mk _ _] -> Item (.code false) part.tokens part.tree :=
    List.forall_mem_singleton.2 quoted
  have ready : empty.prepare.ready = true := rfl
  have parsed := parseForms_of_parts ready (List.cons_ne_nil _ _) single scanned rfl
  rcases parseForms_print parsed rfl (List.mem_singleton.2 rfl) with ⟨again, ending, results⟩
  exact ⟨_, _, again, ending, parsed, rfl, by decide +kernel, results⟩

/-! ## Data -/

/-- Atoms and symbols, and pairs and lists of data. -/
inductive IsDatum : Node SymbolId -> Prop
  | integer {mark value} : IsDatum (.integer mark value)
  | char {mark value} : IsDatum (.char mark value)
  | string {mark contents} : IsDatum (.string mark contents)
  | boolean {mark value} : IsDatum (.boolean mark value)
  | symbol {mark id} : IsDatum (.symbol mark id)
  | empty {mark} : IsDatum (.empty mark)
  | pair {mark car cdr} : IsDatum car -> IsDatum cdr -> IsDatum (.pair mark car cdr)
  | list {mark first others} :
      (forall item, item ∈ first :: others -> IsDatum item) ->
      IsDatum (.list mark first others)

/-- Alone, the text is one token, and the token is a symbol or the word of a
special form with the text as its name. -/
def ScansAsName (name : Bytes) : Prop :=
  Exists fun token => Exists fun pos => Exists fun after =>
    (Cursor.ofText name).tokens = ([token], .finish pos, after) ∧
    (token.lexeme = .symbol name ∨
      Exists fun form => token.lexeme = .word (.head form) ∧ form.name = name)

theorem ScansAsName.legible {name : Bytes} (scans : ScansAsName name) (slot : Slot) :
    Legible slot (.symbol (.plain .start) name) := by
  rcases scans with ⟨token, pos, after, whole, isSymbol | ⟨form, _, same⟩⟩
  · rcases Cursor.tokens_eq_finish_iff.1 ⟨pos, after, whole⟩ with ⟨ending, scanned, _⟩
    have found := scanned.finds token (List.mem_singleton.2 rfl)
    have lexes := found.lexes (congrArg Lexeme.name? isSymbol)
    rw [isSymbol] at lexes
    exact .symbol lexes
  · rw [← same]
    exact .word

/-- A datum is legible if its symbols have such names. -/
theorem IsDatum.legible {node : Node SymbolId} (datum : IsDatum node) {name : SymbolId -> Bytes}
    (scans : forall id, id ∈ node.symbols -> ScansAsName (name id)) :
    Legible .data (node.map name).bare := by
  induction datum with
  | integer => exact .integer
  | char => exact .char
  | string => exact .string
  | boolean => exact .boolean
  | @symbol mark id => exact (scans id (List.mem_singleton.2 rfl)).legible .data
  | empty => exact .empty
  | pair _ _ carLegible cdrLegible =>
      rw [Node.symbols, List.forall_mem_append] at scans
      exact @Legible.chain .data _ _ [] trivial
        (List.forall_mem_singleton.2 (carLegible scans.1)) (cdrLegible scans.2)
  | @list mark first others _ inductionHypothesis =>
      rw [Node.symbols, Node.symbolsOfSeries_eq, List.forall_mem_append, List.forall_mem_flatMap]
        at scans
      rw [List.forall_mem_cons] at inductionHypothesis
      have legible := fun item member =>
        inductionHypothesis.2 item member (scans.2 item member)
      have shape : (Node.map name (.list mark first others)).bare =
          .list ⟨.start, false⟩ (first.map name).bare
            (others.map fun item => (item.map name).bare) := by
        simp [Node.bare, Node.map, Node.remark, Mark.plain]
      rw [shape]
      exact @Legible.list .data _ _ trivial
        (List.forall_mem_cons.2 ⟨inductionHypothesis.1 scans.1, List.forall_mem_map.2 legible⟩)

/-- Every datum with such names can be printed and read again.  The text is one
datum, the same one with no tail flag set, and the symbol table does not
change. -/
theorem parseDatum_print {table : SymbolTable} {node : Node SymbolId} (ready : table.ready = true)
    (datum : IsDatum node) (given : forall id, id ∈ node.symbols -> id < table.size)
    (scans : forall id, id ∈ node.symbols -> ScansAsName (table.nameOf id)) :
    Exists fun again => Exists fun ending =>
      table.parseDatum (node.print table.nameOf) =
        .ok { outcome := .ok again, table := table, cursor := ending } ∧
      node.same again = true ∧ again.unplaced = again.bare := by
  -- A datum that was built may carry any flags, which the text does not show.
  have bareGiven : forall id, id ∈ node.bare.symbols -> id < table.size := by
    rw [Node.bare, Node.symbols_remark]
    exact given
  have legible : Legible .data (node.bare.map table.nameOf).unplaced := by
    rw [← Node.bare_map, Node.unplaced_bare]
    exact datum.legible scans
  rcases item_of_legible ready bareGiven legible with
    ⟨tokens, tree, ending, scanned, ended, item, kept, agree⟩
  rw [Node.bare, Node.print_remark] at scanned
  have read : table.readItem .data (.ofText (node.print table.nameOf)) =
      { outcome := .ok (tree.map table.resolve), table := table, cursor := ending } := by
    rw [readItem_of_item scanned item, kept]
  refine ⟨tree.map table.resolve, ending.skipBlank, ?_, ?_, ?_⟩
  · rw [parseDatum, checkReady, if_pos ready, read]
    simp only [ended]
    rfl
  · rw [Node.same_iff_bare_eq]
    have bare := Node.bare_eq_of_unplaced_eq agree
    rw [Node.bare_bare] at bare
    exact bare.symm
  · have bare := Node.bare_eq_of_unplaced_eq agree
    rw [agree, bare, Node.bare_bare, Node.unplaced_bare]

/-- A list in the last place of a pair, and the word of a special form as a
symbol, flagged by hand. -/
theorem parseDatum_print_word :
    let node : Node SymbolId := .pair ⟨.start, true⟩ (.integer (.plain .start) (-7))
      (.list ⟨.start, true⟩ (.symbol (.plain .start) 2) [.string (.plain .start) [1]])
    Exists fun again => Exists fun ending =>
      empty.prepare.parseDatum (Bytes.ofText "(-7 . (if \"\\x01\"))") =
        .ok { outcome := .ok again, table := empty.prepare, cursor := ending } ∧
      node.same again = true ∧ again.unplaced = again.bare := by
  intro node
  have printed : node.print empty.prepare.nameOf = Bytes.ofText "(-7 . (if \"\\x01\"))" := by
    decide +kernel
  have datum : IsDatum node :=
    .pair .integer (.list (List.forall_mem_cons.2 ⟨.symbol, List.forall_mem_singleton.2 .string⟩))
  have given : forall id, id ∈ node.symbols -> id < empty.prepare.size := by
    decide
  have scanned : (Cursor.ofText (Bytes.ofText "if")).Scans
      [⟨.start, .word (.head .conditional)⟩] ⟨⟨1, 2, 2⟩, []⟩ :=
    .cons rfl (.nil _)
  have name : ScansAsName (Bytes.ofText "if") := by
    rcases Cursor.tokens_eq_finish_iff.2 ⟨_, scanned, rfl⟩ with ⟨pos, after, whole⟩
    exact ⟨_, pos, after, whole, .inr ⟨.conditional, rfl, rfl⟩⟩
  have trip := parseDatum_print rfl datum given (List.forall_mem_singleton.2 name)
  rw [printed] at trip
  exact trip

/-- A name with a space before it is scanned as one symbol, but it is not the
name of that symbol: what is read back is another symbol, and the table grows. -/
theorem padded_name_not_read_back :
    let table := (empty.prepare.intern (Bytes.ofText " foo")).2
    let node : Node SymbolId := .symbol (.plain .start) 8
    table.ready = true ∧ IsDatum node ∧ (forall id, id ∈ node.symbols -> id < table.size) ∧
      (forall id, id ∈ node.symbols -> Exists fun token => Exists fun pos => Exists fun after =>
        Exists fun name =>
        (Cursor.ofText (table.nameOf id)).tokens = ([token], .finish pos, after) ∧
          token.lexeme = .symbol name) ∧
      ¬ Exists fun again => Exists fun ending =>
        table.parseDatum (node.print table.nameOf) =
          .ok { outcome := .ok again, table := table, cursor := ending } ∧
        node.same again = true ∧ again.unplaced = again.bare := by
  have scanned : (Cursor.ofText (Bytes.ofText " foo")).Scans
      [⟨⟨1, 1, 1⟩, .symbol (Bytes.ofText "foo")⟩] ⟨⟨1, 4, 4⟩, []⟩ :=
    .cons rfl (.nil _)
  refine ⟨rfl, .symbol, by decide, ?_, ?_⟩
  · refine List.forall_mem_singleton.2 ?_
    rcases Cursor.tokens_eq_finish_iff.2 ⟨_, scanned, rfl⟩ with ⟨pos, after, whole⟩
    exact ⟨_, pos, after, _, whole, rfl⟩
  · rintro ⟨again, ending, parsed, _⟩
    have grown : ((empty.prepare.intern (Bytes.ofText " foo")).2.parseDatum
        (Bytes.ofText " foo")).toOption.map (fun read => read.table.size) = some 10 := by
      decide +kernel
    have kept := congrArg (fun read => read.toOption.map fun read => read.table.size) parsed
    have sizes : 10 = (empty.prepare.intern (Bytes.ofText " foo")).2.size :=
      Option.some.inj (grown.symm.trans kept)
    exact absurd sizes (by decide)

end SymbolTable

end TailLisp

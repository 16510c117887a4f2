import TailLisp.Proofs.Concatenation
import TailLisp.Proofs.NodePlaces

namespace TailLisp

/-!
Quotation.

A datum can be quoted by a tick or by a list with the word `quote`, in code and
in data.  In code both give a `quote` node with the datum inside; in data both
give the list of the symbol `quote` and the datum.  A tick finds the id of the
symbol in the ready table, the word is entered like any other name: the two
come to the same.  The datum is read as it is read alone, whatever words it
begins with, because a quoted datum is read in the slot of data.  For the same
reason no special form and no tail flag gets into a quoted datum.
-/

open ByteClass Grammar

/-! ## Quoted data -/

namespace Node

variable {Symbol : Type}

/-- Whether data have nodes of this kind. -/
def isData : Node Symbol -> Bool
  | integer _ _ => true
  | char _ _ => true
  | string _ _ => true
  | boolean _ _ => true
  | symbol _ _ => true
  | empty _ => true
  | pair _ _ _ => true
  | list _ _ _ => true
  | _ => false

/-- All nodes of the tree are of the kinds that data have, and none is
flagged. -/
def IsPlainData (node : Node Symbol) : Prop :=
  forall inner, inner ∈ node.preorder -> inner.isData = true ∧ inner.mark.tail = false

namespace IsPlainData

theorem of_children {node : Node Symbol} (atRoot : node.isData = true ∧ node.mark.tail = false)
    (inChildren : forall child, child ∈ node.children -> child.IsPlainData) :
    node.IsPlainData := by
  intro inner member
  rw [preorder_eq] at member
  rcases List.mem_cons.1 member with same | member
  · rw [same]
    exact atRoot
  · rcases List.mem_flatMap.1 member with ⟨child, isChild, inside⟩
    exact inChildren child isChild inner inside

theorem chain {items : List (Node Symbol)} {ending : Node Symbol}
    (inItems : forall item, item ∈ items -> item.IsPlainData) (inEnding : ending.IsPlainData) :
    (Node.chain ending items).IsPlainData := by
  induction items with
  | nil => exact inEnding
  | cons item items inductionHypothesis =>
      rcases List.forall_mem_cons.1 inItems with ⟨inFirst, inOthers⟩
      apply of_children ⟨rfl, rfl⟩
      exact List.forall_mem_cons.2
        ⟨inFirst, List.forall_mem_singleton.2 (inductionHypothesis inOthers)⟩

end IsPlainData

end Node

theorem Token.isPlainData_of_atom {Symbol : Type} {token : Token} {tree : Tree}
    (atom : token.atom? = some tree) (replace : Reference -> Symbol) :
    (tree.map replace).IsPlainData := by
  unfold atom? at atom
  split at atom
  case h_3 =>
      rcases Option.map_eq_some_iff.1 atom with ⟨contents, _, same⟩
      rw [← same]
      exact .of_children ⟨rfl, rfl⟩ nofun
  all_goals cases atom
  all_goals exact .of_children ⟨rfl, rfl⟩ nofun

namespace Grammar

/-- The tree of a datum is plain. -/
theorem Item.isPlainData {Symbol : Type} {tokens : List Token} {tree : Tree}
    (item : Item .data tokens tree) (replace : Reference -> Symbol) :
    (tree.map replace).IsPlainData := by
  generalize inData : Slot.data = slot at item
  induction item with
  | atom atom => exact Token.isPlainData_of_atom atom replace
  | ticked _ inDatum =>
      subst inData
      apply Node.IsPlainData.of_children ⟨rfl, rfl⟩
      refine List.forall_mem_cons.2 ⟨?_, List.forall_mem_singleton.2 (inDatum rfl)⟩
      exact .of_children ⟨rfl, rfl⟩ nofun
  | empty => exact .of_children ⟨rfl, rfl⟩ nofun
  | @list slot pos ending first others _ _ inParts =>
      subst inData
      apply Node.IsPlainData.of_children ⟨rfl, rfl⟩
      rw [Node.children_map, Node.children_list, ← List.map_cons, List.map_map]
      exact List.forall_mem_map.2 fun part member => inParts part member rfl
  | @dotted slot pos dot tokens last ending first others _ _ _ inParts inLast =>
      subst inData
      rcases List.forall_mem_cons.1 inParts with ⟨inFirst, inOthers⟩
      apply Node.IsPlainData.of_children ⟨rfl, rfl⟩
      rw [Node.map, Node.map_chain]
      refine List.forall_mem_cons.2
        ⟨inFirst rfl, List.forall_mem_singleton.2 (.chain ?_ (inLast rfl))⟩
      rw [List.map_map]
      exact List.forall_mem_map.2 fun part member => inOthers part member rfl
  | _ => cases inData

/-- Only a tick and the word `quote` make a `quote` node, and both read its
datum as data. -/
theorem ReadFrom.datum_of_quote {tokens : List Token} {mark : Mark} {datum : Tree}
    (read : ReadFrom tokens (.quote mark datum)) :
    Exists fun inner => Item .data inner datum := by
  generalize same : Node.quote mark datum = tree at read
  cases read with
  | link => cases same
  | implied => cases same
  | item slot item =>
      cases item with
      | atom atom =>
          have children := (Token.pos_of_atom atom).2
          rw [← same] at children
          cases children
      | ticked inner =>
          cases slot <;> cases same
          exact ⟨_, inner⟩
      | quote inner =>
          cases same
          exact ⟨_, inner⟩
      | _ => cases same

namespace Placed

variable {Symbol : Type} {replace : Reference -> Symbol} {tokens : List Token}

theorem of_mem_preorder {node inner : Node Symbol} (placed : Placed replace tokens node)
    (member : inner ∈ node.preorder) : Exists fun row => Placed replace row inner := by
  induction placed with
  | @first token tokens tree parts read pos children inOrder inParts inductionHypothesis =>
      rw [Node.preorder_eq, children, List.flatMap_map] at member
      rcases List.mem_cons.1 member with same | member
      · rw [same]
        exact ⟨_, .first read pos children inOrder inParts⟩
      · rcases List.mem_flatMap.1 member with ⟨part, partMember, inside⟩
        exact inductionHypothesis part partMember inside

theorem isPlainData_of_quote {mark : Mark} {datum : Node Symbol}
    (placed : Placed replace tokens (.quote mark datum)) : datum.IsPlainData := by
  generalize same : Node.quote mark datum = node at placed
  cases placed with
  | @first token tokens tree parts read =>
      cases tree <;> cases same
      rcases read.datum_of_quote with ⟨inner, item⟩
      exact item.isPlainData replace

end Placed

end Grammar

/-! ## Ticks and words -/

/-- The text that quotes a datum by a tick, and the text that quotes it by a
list.  The newline ends a comment at the end of the datum. -/
def Bytes.quotations (text : Bytes) : List Bytes :=
  [tick :: text, Bytes.ofText "(quote " ++ (text ++ newline :: Bytes.ofText ")")]

namespace Cursor

/-- What is scanned in a text is scanned elsewhere too, at other places, and in
front of whatever does not go on with its last token. -/
theorem Scans.transplant {text later : Bytes} {tokens : List Token} {ending : Cursor}
    (scanned : (ofText text).Scans tokens ending) (boundary : Boundary (ending.rest ++ later))
    (pos : Position) :
    Exists fun move : Position -> Position => Exists fun reached : Position =>
      Scans ⟨pos, text ++ later⟩ (tokens.map (Token.relocate move))
        ⟨reached, ending.rest ++ later⟩ := by
  rcases scanned.exists_tiled with ⟨pieces, tiled, sameTokens, whole, _⟩
  rcases (tiled.replace_rest boundary).replace_pos pos with
    ⟨others, moved, sameBytes, sameLexemes⟩
  have distinct : (tokens.map Token.pos).Nodup := by
    rw [← sameTokens, List.map_map]
    exact tiled.nodup_pos
  have alike : (others.map Piece.token).map Token.lexeme = tokens.map Token.lexeme := by
    rw [← sameTokens, List.map_map, List.map_map]
    exact sameLexemes
  rcases Token.exists_relocate distinct alike with ⟨move, same⟩
  have again := scans_of_tiled moved
  change text = _ at whole
  rw [same, sameBytes, ← List.append_assoc, ← whole] at again
  exact ⟨move, _, again⟩

end Cursor

namespace Grammar

/-- The tokens quote a datum, in code and in data. -/
structure Quotes (tokens : List Token) (datum : Tree) : Prop where
  inCode : Exists fun pos => Item (.code false) tokens (.quote (.plain pos) datum)
  inData : Exists fun pos => Exists fun word => Exists fun reference =>
    reference.spelling = SpecialForm.quote.name ∧
    Item .data tokens (.list (.plain pos) (.symbol (.plain word) reference) [datum])

namespace Quotes

variable {tokens : List Token} {datum : Tree}

theorem ticked (pos : Position) (item : Item .data tokens datum) :
    Quotes (⟨pos, .tick⟩ :: tokens) datum where
  inCode := ⟨pos, .ticked item⟩
  inData := ⟨pos, pos, .reserved .quote, rfl, .ticked item⟩

theorem listed (pos word ending : Position) (item : Item .data tokens datum) :
    Quotes (⟨pos, .opening⟩ :: ⟨word, .word (.head .quote)⟩ :: (tokens ++ [⟨ending, .closing⟩]))
      datum where
  inCode := ⟨pos, .quote item⟩
  inData := by
    have first : Item .data [⟨word, .word (.head .quote)⟩] _ := .atom rfl
    have whole := @Item.list .data pos ending ⟨_, _⟩ [⟨tokens, datum⟩] rfl
      (List.forall_mem_cons.2 ⟨first, List.forall_mem_singleton.2 item⟩)
    rw [List.flatMap_cons, List.flatMap_singleton] at whole
    exact ⟨pos, word, .named SpecialForm.quote.name, rfl, whole⟩

end Quotes

end Grammar

namespace Cursor

/-- The text of a datum in a list behind the word `quote`. -/
theorem Scans.listed {text : Bytes} {tokens : List Token} {ending : Cursor}
    (scanned : (ofText text).Scans tokens ending) (last : Blank.LastGap ending.rest)
    (nonempty : tokens ≠ []) :
    Exists fun move : Position -> Position => Exists fun word : Position =>
      Exists fun closing : Position => Exists fun reached : Position =>
      (ofText (Bytes.ofText "(quote " ++ (text ++ newline :: Bytes.ofText ")"))).Scans
        (⟨.start, .opening⟩ :: ⟨word, .word (.head .quote)⟩ ::
          (tokens.map (Token.relocate move) ++ [⟨closing, .closing⟩])) ⟨reached, []⟩ := by
  have named := next_of_lexes (Lexes.word (.head .quote)) (Position.start.after [openParen])
    (@Boundary.cons ' '.toUInt8 (text ++ newline :: [closeParen]) (by decide))
  have opened := next_opening Position.start
    (SpecialForm.quote.name ++ ' '.toUInt8 :: (text ++ newline :: [closeParen]))
  have boundary : Boundary (ending.rest ++ newline :: [closeParen]) :=
    last.boundary.append (.cons _ (by decide))
  rcases scanned.transplant boundary
    (((Position.start.after [openParen]).after SpecialForm.quote.name).after [' '.toUInt8]) with
    ⟨move, reached, again⟩
  have spaced := again.of_next_eq (next_space _ _).symm (by simpa using nonempty)
  have closed := next_of_isLexeme (.of_lastGap last) .closing (fun _ => Boundary.nil) reached
  rw [List.append_nil, List.append_assoc, List.singleton_append] at closed
  exact ⟨move, _, _, _, .cons opened (.cons named (spaced.append (.cons closed (.nil _))))⟩

/-- A text that quotes a datum is scanned to tokens that quote it. -/
theorem Scans.exists_quotes {text written : Bytes} {tokens : List Token} {datum : Tree}
    {ending : Cursor} (scanned : (ofText text).Scans tokens ending)
    (ended : ending.skipBlank.atEnd = true) (item : Item .data tokens datum)
    (quoted : written ∈ text.quotations) :
    Exists fun move : Position -> Position => Exists fun others => Exists fun reached : Cursor =>
      (ofText written).Scans others reached ∧ reached.skipBlank.atEnd = true ∧
        Quotes others (datum.relocate move) := by
  have last : Blank.LastGap ending.rest := (atEnd_skipBlank_iff_lastGap ending).1 ended
  rcases List.mem_cons.1 quoted with isTick | quoted
  · rw [isTick]
    have boundary : Boundary (ending.rest ++ []) := last.boundary.append .nil
    rcases scanned.transplant boundary (Position.start.after [tick]) with ⟨move, reached, again⟩
    rw [List.append_nil, List.append_nil] at again
    have found := @next_of_isLexeme [] _ text _ .nil .tick nofun Position.start
    exact ⟨move, _, _, .cons found again, (atEnd_skipBlank_iff_lastGap _).2 last,
      .ticked _ (item.relocate move)⟩
  · rw [List.mem_singleton.1 quoted]
    rcases scanned.listed last item.tokens_ne_nil with ⟨move, word, closing, reached, again⟩
    exact ⟨move, _, _, again, rfl, .listed _ _ _ (item.relocate move)⟩

end Cursor

namespace SymbolTable

/-- A text is read as the quotation of a datum.  As a program it is one `quote`
of the datum, as a datum it is the list of the symbol `quote` and the datum; in
both cases the table is filled in the same way. -/
structure ReadsQuotation (table filled : SymbolTable) (written : Bytes) (datum : Node SymbolId) :
    Prop where
  inCode : Exists fun mark => Exists fun again => Exists fun ending =>
    table.parseForms written =
      .ok { outcome := .ok [.quote mark again], table := filled, cursor := ending } ∧
    datum.same again = true
  inData : Exists fun mark => Exists fun word => Exists fun id => Exists fun again =>
    Exists fun ending =>
    table.parseDatum written =
      .ok { outcome := .ok (.list mark (.symbol word id) [again])
            table := filled
            cursor := ending } ∧
    filled.nameOf id = Bytes.ofText "quote" ∧ datum.same again = true

section

variable {table : SymbolTable} (ready : table.ready = true)

include ready

/-- The word of a quotation is held by a ready table, whichever way it is
written. -/
theorem insertAll_names_quotation {reference : Reference}
    (spelled : reference.spelling = SpecialForm.quote.name) (mark word : Mark) (datum : Tree) :
    table.insertAll (Node.list mark (.symbol word reference) [datum]).names =
      table.insertAll datum.names := by
  have held : forall name, name ∈ (Node.symbol word reference).names -> name ∈ table.names := by
    intro name arrives
    have same : name = SpecialForm.quote.name := by
      cases reference with
      | named label =>
          rw [List.mem_singleton.1 arrives]
          exact spelled
      | reserved form => cases arrives
    rw [same]
    exact table.reserved ready .quote
  rw [Node.names_list, List.flatMap_cons, List.flatMap_singleton, insertAll_append,
    insertAll_of_held held]

theorem readsQuotation_of_quotes {written : Bytes} {tokens : List Token} {tree : Tree}
    {ending : Cursor} {move : Position -> Position}
    (scanned : (Cursor.ofText written).Scans tokens ending)
    (ended : ending.skipBlank.atEnd = true) (quotes : Quotes tokens (tree.relocate move)) :
    ReadsQuotation table (table.insertAll tree.names) written
      (tree.map (table.insertAll tree.names).resolve) := by
  have filledReady : (table.insertAll tree.names).ready = true :=
    (ready_insertAll table _).trans ready
  have again : ((tree.map (table.insertAll tree.names).resolve).same
      ((tree.relocate move).map (table.insertAll tree.names).resolve)) = true := by
    rw [← Node.relocate_map]
    exact Node.same_relocate move _
  constructor
  · rcases quotes.inCode with ⟨pos, item⟩
    have parsed := parseForms_of_item ready item scanned ended
    rw [Node.names_quote, Node.names_relocate] at parsed
    exact ⟨_, _, _, parsed, again⟩
  · rcases quotes.inData with ⟨pos, word, reference, spelled, item⟩
    have parsed := parseDatum_of_item ready item scanned ended
    rw [insertAll_names_quotation ready spelled, Node.names_relocate] at parsed
    refine ⟨_, _, _, _, _, parsed, ?_, again⟩
    rw [resolve_eq_idOf filledReady, spelled]
    exact nameOf_idOf ((table.insertAll tree.names).reserved filledReady .quote)

end

/-- Both ways of quoting a datum come to the same, in code and in data.  They
are read with the datum that is read alone, into the table in which the datum
was read and into every later state of it.  Whatever is quoted in a program is
made of atoms, symbols, pairs and lists without tail flags. -/
theorem quotations_read_as_data (table : SymbolTable) :
    (forall text read datum written, table.parseDatum text = .ok read ->
      read.outcome = .ok datum -> written ∈ text.quotations ->
      ReadsQuotation table read.table written datum ∧
      forall later, later.ready = true -> read.table.names <+: later.names ->
        ReadsQuotation later later written datum) ∧
    (forall text result forms form mark datum, table.parseForms text = .ok result ->
      result.outcome = .ok forms -> form ∈ forms -> .quote mark datum ∈ form.preorder ->
      datum.IsPlainData) := by
  constructor
  · intro text read datum written parsed done quoted
    rcases item_of_parseDatum parsed done with
      ⟨ready, tokens, tree, ending, scanned, ended, item, filled, same⟩
    rcases scanned.exists_quotes ended item quoted with
      ⟨move, others, reached, again, alsoEnded, quotes⟩
    rw [same, filled]
    refine ⟨readsQuotation_of_quotes ready again alsoEnded quotes, ?_⟩
    intro later laterReady grown
    have holds := holds_insertAll_names table tree
    have kept : later.insertAll tree.names = later :=
      insertAll_of_held fun name arrives => grown.subset (holds name arrives)
    have readAgain := readsQuotation_of_quotes laterReady again alsoEnded quotes
    have sameIds := map_resolve_of_isPrefix grown holds ((ready_insertAll table _).trans ready)
      laterReady
    rw [kept, sameIds] at readAgain
    exact readAgain
  · intro text result forms form mark datum parsed done member inside
    rcases item_of_parseForms parsed done member with ⟨_, tokens, tree, item, _, _, same⟩
    rw [same] at inside
    rcases (Placed.of_item item).of_mem_preorder inside with ⟨row, placed⟩
    exact placed.isPlainData_of_quote

/-- A datum that would be a malformed conditional in code, with a tick inside
and a comment behind it. -/
theorem quotations_read_as_data_comment :
    Exists fun read => Exists fun datum =>
      empty.prepare.parseDatum (Bytes.ofText "(if 'x) ;c") = .ok read ∧
      read.outcome = .ok datum ∧
      ReadsQuotation empty.prepare read.table (Bytes.ofText "'(if 'x) ;c") datum ∧
      ReadsQuotation read.table read.table (Bytes.ofText "(quote (if 'x) ;c\n)") datum ∧
      Exists fun mark => Exists fun again => Exists fun ending =>
        empty.prepare.parseForms (Bytes.ofText "'(if 'x) ;c") =
          .ok { outcome := .ok [.quote mark again], table := read.table, cursor := ending } ∧
        again.IsPlainData := by
  have scanned : (Cursor.ofText (Bytes.ofText "(if 'x) ;c")).Scans _
      ⟨⟨1, 7, 7⟩, Bytes.ofText " ;c"⟩ :=
    .cons rfl (.cons rfl (.cons rfl (.cons rfl (.cons rfl (.nil _)))))
  have word : Item .data [⟨⟨1, 1, 1⟩, .word (.head .conditional)⟩] _ := .atom rfl
  have label : Item .data [⟨⟨1, 5, 5⟩, .symbol (Bytes.ofText "x")⟩] _ := .atom rfl
  have inner : Item .data _ _ := @Item.ticked .data ⟨1, 4, 4⟩ _ _ label
  have item : Item .data _ _ :=
    @Item.list .data ⟨1, 0, 0⟩ ⟨1, 6, 6⟩ ⟨_, _⟩ [⟨_, _⟩] rfl
      (List.forall_mem_cons.2 ⟨word, List.forall_mem_singleton.2 inner⟩)
  have ready : empty.prepare.ready = true := rfl
  have parsed := parseDatum_of_item ready item scanned rfl
  have quoted := (quotations_read_as_data empty.prepare).1 _ _ _ (Bytes.ofText "'(if 'x) ;c")
    parsed rfl (.head _)
  have listed := (quotations_read_as_data empty.prepare).1 _ _ _
    (Bytes.ofText "(quote (if 'x) ;c\n)") parsed rfl (.tail _ (.head _))
  rcases quoted.1.inCode with ⟨mark, again, ending, inCode, _⟩
  refine ⟨_, _, parsed, rfl, quoted.1, listed.2 _ rfl (List.prefix_refl _), mark, again, ending,
    inCode, ?_⟩
  exact (quotations_read_as_data empty.prepare).2 _ _ _ _ mark again inCode rfl
    (List.mem_singleton.2 rfl) (Node.self_mem_preorder _)

end SymbolTable

end TailLisp

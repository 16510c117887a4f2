import TailLisp.Proofs.Locations
import TailLisp.Proofs.Reporting
import TailLisp.Proofs.TableIndependence
import TailLisp.Proofs.TailSlots

namespace TailLisp

/-!
The grammar of data.

Quoted data have a grammar of their own, which knows neither slots nor special
forms.  It is written down here once more without reference to code, and its
trees hold the names of their symbols, so that it can be read without a symbol
table.  A text is a datum if it can be scanned to its end and its tokens derive
one datum; what is read then is the tree of the derivation.  If anything but
blank text follows the datum, the place of its first byte is reported.
-/

open ByteClass Grammar

namespace Grammar

/-- Some tokens and the datum they stand for. -/
structure DatumPassage where
  tokens : List Token
  datum : Node Bytes

/-- The tokens derive the datum.  A tick stands for the list of the word
`quote` and what follows the tick; a dot turns the elements before it into a
chain of pairs that ends in the element behind it. -/
inductive Datum : List Token -> Node Bytes -> Prop
  | integer {pos value} : Datum [⟨pos, .integer value⟩] (.integer (.plain pos) value)
  | char {pos value} : Datum [⟨pos, .char value⟩] (.char (.plain pos) value)
  | string {pos raw contents} :
      Escape.decode raw = some contents ->
      Datum [⟨pos, .string raw⟩] (.string (.plain pos) contents)
  | truth {pos value} : Datum [⟨pos, .word (.truth value)⟩] (.boolean (.plain pos) value)
  | symbol {pos name} : Datum [⟨pos, .symbol name⟩] (.symbol (.plain pos) name)
  | word {pos form} : Datum [⟨pos, .word (.head form)⟩] (.symbol (.plain pos) form.name)
  | ticked {pos tokens datum} :
      Datum tokens datum ->
      Datum (⟨pos, .tick⟩ :: tokens)
        (.list (.plain pos) (.symbol (.plain pos) SpecialForm.quote.name) [datum])
  | empty {pos ending} :
      Datum [⟨pos, .opening⟩, ⟨ending, .closing⟩] (.empty (.plain pos))
  | list {pos ending} {first : DatumPassage} {others : List DatumPassage} :
      (forall part, part ∈ first :: others -> Datum part.tokens part.datum) ->
      Datum
        (⟨pos, .opening⟩ ::
          ((first :: others).flatMap DatumPassage.tokens ++ [⟨ending, .closing⟩]))
        (.list (.plain pos) first.datum (others.map DatumPassage.datum))
  | dotted {pos dot tokens last ending} {first : DatumPassage} {others : List DatumPassage} :
      (forall part, part ∈ first :: others -> Datum part.tokens part.datum) ->
      Datum tokens last ->
      Datum
        (⟨pos, .opening⟩ :: ((first :: others).flatMap DatumPassage.tokens ++
          ⟨dot, .dot⟩ :: (tokens ++ [⟨ending, .closing⟩])))
        (.pair (.plain pos) first.datum (Node.chain last (others.map DatumPassage.datum)))

/-- A passage with names in the place of references. -/
def Passage.spelled (passage : Passage) : DatumPassage where
  tokens := passage.tokens
  datum := passage.tree.map Reference.spelling

/-- An atom is a datum by itself. -/
theorem Datum.of_atom {token : Token} {tree : Tree} (atom : token.atom? = some tree) :
    Datum [token] (tree.map Reference.spelling) := by
  rcases token with ⟨pos, lexeme⟩
  cases lexeme with
  | integer value => cases atom; exact .integer
  | char value => cases atom; exact .char
  | string raw =>
      rcases Option.map_eq_some_iff.1 atom with ⟨contents, decoded, same⟩
      cases same
      exact .string decoded
  | symbol name => cases atom; exact .symbol
  | word keyword =>
      cases keyword with
      | truth value => cases atom; exact .truth
      | head form => cases atom; exact .word
  | _ => cases atom

/-- A row of passages has the same tokens with names in its trees. -/
theorem flatMap_tokens_spelled (parts : List Passage) :
    (parts.map Passage.spelled).flatMap DatumPassage.tokens = parts.flatMap Passage.tokens := by
  rw [List.flatMap_map]
  rfl

theorem map_datum_spelled (parts : List Passage) :
    (parts.map Passage.spelled).map DatumPassage.datum =
      (parts.map Passage.tree).map (Node.map Reference.spelling) := by
  rw [List.map_map, List.map_map]
  rfl

/-- What the reader takes for a datum is derived by the grammar. -/
theorem Datum.of_item {tokens : List Token} {tree : Tree} (item : Item .data tokens tree) :
    Datum tokens (tree.map Reference.spelling) := by
  generalize inData : Slot.data = slot at item
  induction item with
  | atom atom => exact .of_atom atom
  | ticked _ datum =>
      subst inData
      exact .ticked (datum rfl)
  | empty => exact .empty
  | @list slot pos ending first others _ _ parts =>
      subst inData
      have derived := @Datum.list pos ending first.spelled (others.map Passage.spelled)
      rw [← List.map_cons, flatMap_tokens_spelled, map_datum_spelled] at derived
      rw [Node.map, Node.mapSeries_eq]
      apply derived
      exact List.forall_mem_map.2 fun part member => parts part member rfl
  | @dotted slot pos dot tokens last ending first others _ _ _ parts ends =>
      subst inData
      have derived := @Datum.dotted pos dot tokens (last.map Reference.spelling) ending first.spelled
        (others.map Passage.spelled)
      rw [← List.map_cons, flatMap_tokens_spelled, map_datum_spelled] at derived
      rw [Node.map, Node.map_chain]
      apply derived
      · exact List.forall_mem_map.2 fun part member => parts part member rfl
      · exact ends rfl
  | _ => cases inData

/-- A row of passages that can be spelled was spelled from items. -/
theorem exists_spelled {parts : List DatumPassage}
    (found : forall part, part ∈ parts -> Exists fun tree => Item .data part.tokens tree ∧
      tree.map Reference.spelling = part.datum) :
    Exists fun passages : List Passage => passages.map Passage.spelled = parts ∧
      forall passage, passage ∈ passages -> Item .data passage.tokens passage.tree := by
  induction parts with
  | nil => exact ⟨[], rfl, nofun⟩
  | cons part parts inductionHypothesis =>
      rcases List.forall_mem_cons.1 found with ⟨⟨tree, item, spelled⟩, others⟩
      rcases inductionHypothesis others with ⟨passages, same, items⟩
      refine ⟨⟨part.tokens, tree⟩ :: passages, ?_, List.forall_mem_cons.2 ⟨item, items⟩⟩
      rw [List.map_cons, same, Passage.spelled, spelled]

/-- What the grammar derives is read as a datum. -/
theorem Datum.exists_item {tokens : List Token} {datum : Node Bytes}
    (derived : Datum tokens datum) :
    Exists fun tree => Item .data tokens tree ∧ tree.map Reference.spelling = datum := by
  induction derived with
  | @string pos raw contents decoded =>
      refine ⟨.string (.plain pos) contents, .atom ?_, rfl⟩
      exact Option.map_eq_some_iff.2 ⟨contents, decoded, rfl⟩
  | ticked _ datum =>
      rcases datum with ⟨tree, item, spelled⟩
      refine ⟨_, .ticked item, ?_⟩
      rw [← spelled]
      rfl
  | empty => exact ⟨_, .empty, rfl⟩
  | @list pos ending first others _ parts =>
      rcases exists_spelled parts with ⟨_ | ⟨head, passages⟩, same, items⟩
      · cases same
      · cases same
        refine ⟨.list (.plain pos) head.tree (passages.map Passage.tree), ?_, ?_⟩
        · rw [← List.map_cons, flatMap_tokens_spelled]
          exact .list rfl items
        · rw [Node.map, Node.mapSeries_eq, ← map_datum_spelled]
          rfl
  | @dotted pos dot tokens last ending first others _ _ parts ends =>
      rcases ends with ⟨tree, item, spelled⟩
      rcases exists_spelled parts with ⟨_ | ⟨head, passages⟩, same, items⟩
      · cases same
      · cases same
        refine ⟨.pair (.plain pos) head.tree (Node.chain tree (passages.map Passage.tree)), ?_, ?_⟩
        · rw [← List.map_cons, flatMap_tokens_spelled]
          exact .dotted rfl items item
        · rw [Node.map, Node.map_chain, ← map_datum_spelled, spelled]
          rfl
  | _ => exact ⟨_, .atom rfl, rfl⟩

end Grammar

/-! ## Texts of one datum -/

namespace SymbolTable

/-- A text whose tokens begin with a datum is read as that datum if the rest of
it is blank, and otherwise refused where the rest begins. -/
theorem parseDatum_of_datum {table : SymbolTable} (ready : table.ready = true) {text : Bytes}
    {tokens : List Token} {datum : Node Bytes} {ending : Cursor}
    (scanned : (Cursor.ofText text).Scans tokens ending) (derived : Datum tokens datum) :
    Exists fun result => table.parseDatum text = .ok result ∧
      (ending.skipBlank.atEnd = true -> Exists fun node => result.outcome = .ok node ∧
        node.map result.table.nameOf = datum) ∧
      (¬ ending.skipBlank.atEnd = true ->
        result.outcome = .error (.syntaxAt ending.skipBlank.pos .trailingInput)) := by
  rcases derived.exists_item with ⟨tree, item, spelled⟩
  have named : (tree.map (table.insertAll tree.names).resolve).map
      (table.insertAll tree.names).nameOf = datum := by
    rw [← spelled]
    exact map_nameOf_resolve (holds_insertAll_names table tree)
      ((ready_insertAll table _).trans ready)
  refine ⟨_, parseDatum_of_ready ready text, ?_, ?_⟩
  · intro ended
    rw [readItem_of_item scanned item]
    simp only [ended]
    exact ⟨_, rfl, named⟩
  · intro more
    rw [readItem_of_item scanned item]
    simp only [more]
    rfl

/-- The reader of data accepts exactly the grammar of data.  A text is read if
it can be scanned to its end and its tokens derive a datum, and whatever datum
they derive is the one that is read.  A text that goes on behind a datum is
refused at the first byte that is not blank, whether or not that byte begins a
sound token. -/
theorem parseDatum_reads_exactly_data {table : SymbolTable} (ready : table.ready = true)
    (text : Bytes) :
    Exists fun result => table.parseDatum text = .ok result ∧
      ((Exists fun node => result.outcome = .ok node) ↔
        Exists fun tokens => Exists fun datum => Datum tokens datum ∧
          Exists fun pos => Exists fun after =>
            (Cursor.ofText text).tokens = (tokens, .finish pos, after)) ∧
      (forall tokens datum, Datum tokens datum ->
        (Exists fun pos => Exists fun after =>
          (Cursor.ofText text).tokens = (tokens, .finish pos, after)) ->
        Exists fun node => result.outcome = .ok node ∧ node.map result.table.nameOf = datum) ∧
      (forall tokens datum ending gap first rest, Datum tokens datum ->
        (Cursor.ofText text).Scans tokens ending ->
        Blank.Gap gap -> isBlank first = false -> first ≠ commentMark ->
        ending.rest = gap ++ first :: rest ->
        Exists fun consumed => text = consumed ++ first :: rest ∧
          result.outcome = .error (.syntaxAt (.behind 1 0 consumed) .trailingInput)) := by
  rcases parseDatum_exact ready text with ⟨result, parsed, accepted⟩
  have reads {tokens : List Token} {datum : Node Bytes} {ending : Cursor}
      (scanned : (Cursor.ofText text).Scans tokens ending) (derived : Datum tokens datum) :
      (ending.skipBlank.atEnd = true -> Exists fun node => result.outcome = .ok node ∧
        node.map result.table.nameOf = datum) ∧
      (¬ ending.skipBlank.atEnd = true ->
        result.outcome = .error (.syntaxAt ending.skipBlank.pos .trailingInput)) := by
    rcases parseDatum_of_datum ready scanned derived with ⟨other, alsoParsed, outcomes⟩
    cases parsed.symm.trans alsoParsed
    exact outcomes
  refine ⟨result, parsed, ?_, ?_, ?_⟩
  · rw [accepted.accepts, IsItem]
    constructor
    · rintro ⟨tokens, tree, item, whole⟩
      exact ⟨tokens, _, .of_item item, whole⟩
    · rintro ⟨tokens, datum, derived, whole⟩
      rcases derived.exists_item with ⟨tree, item, _⟩
      exact ⟨tokens, tree, item, whole⟩
  · intro tokens datum derived whole
    rcases Cursor.tokens_eq_finish_iff.1 whole with ⟨ending, scanned, ended⟩
    exact (reads scanned derived).1 ended
  · intro tokens datum ending gap first rest derived scanned isGap notBlank noComment goesOn
    rcases scanned.exists_reachedBy with ⟨taken, reached⟩
    have behind := reached.skipBlank
    have split : Blank.split ending.rest = (gap, first :: rest) := by
      rw [goesOn]
      exact Blank.split_gap isGap notBlank noComment rest
    have left : ending.skipBlank.rest = first :: rest := congrArg Prod.snd split
    rw [split] at behind
    have refused := (reads scanned derived).2 (by simp [Cursor.atEnd, left])
    rw [behind.pos] at refused
    have place := Position.after_eq_behind 1 0 (taken ++ gap)
    refine ⟨taken ++ gap, ?_, ?_⟩
    · rw [← left]
      exact behind.rest
    · rw [refused, ← place]
      rfl

/-- A tick inside a dotted list, and a text that goes on below a comment. -/
theorem parseDatum_reads_exactly_data_dotted :
    (Exists fun result => Exists fun node =>
      empty.prepare.parseDatum (Bytes.ofText "(a 'b . if)") = .ok result ∧
      result.outcome = .ok node ∧
      node.map result.table.nameOf =
        .pair (.plain ⟨1, 0, 0⟩) (.symbol (.plain ⟨1, 1, 1⟩) (Bytes.ofText "a"))
          (.pair (.plain ⟨1, 3, 3⟩)
            (.list (.plain ⟨1, 3, 3⟩) (.symbol (.plain ⟨1, 3, 3⟩) (Bytes.ofText "quote"))
              [.symbol (.plain ⟨1, 4, 4⟩) (Bytes.ofText "b")])
            (.symbol (.plain ⟨1, 8, 8⟩) (Bytes.ofText "if")))) ∧
    Exists fun result => empty.prepare.parseDatum (Bytes.ofText "a;b\n )") = .ok result ∧
      result.outcome = .error (.syntaxAt ⟨2, 1, 5⟩ .trailingInput) := by
  constructor
  · have quoted : Datum [⟨⟨1, 3, 3⟩, .tick⟩, ⟨⟨1, 4, 4⟩, .symbol (Bytes.ofText "b")⟩] _ :=
      .ticked .symbol
    have derived := @Datum.dotted ⟨1, 0, 0⟩ ⟨1, 6, 6⟩ _ _ ⟨1, 10, 10⟩
      ⟨[⟨⟨1, 1, 1⟩, .symbol (Bytes.ofText "a")⟩], _⟩ [⟨_, _⟩]
      (List.forall_mem_cons.2 ⟨.symbol, List.forall_mem_singleton.2 quoted⟩)
      (@Datum.word ⟨1, 8, 8⟩ .conditional)
    have scanned : (Cursor.ofText (Bytes.ofText "(a 'b . if)")).Scans _ ⟨⟨1, 11, 11⟩, []⟩ :=
      .cons rfl (.cons rfl (.cons rfl (.cons rfl (.cons rfl (.cons rfl (.cons rfl (.nil _)))))))
    rcases @parseDatum_reads_exactly_data empty.prepare rfl (Bytes.ofText "(a 'b . if)") with
      ⟨result, parsed, _, reads, _⟩
    rcases reads _ _ derived (Cursor.tokens_eq_finish_iff.2 ⟨_, scanned, rfl⟩) with
      ⟨node, done, named⟩
    exact ⟨result, node, parsed, done, named⟩
  · have scanned : (Cursor.ofText (Bytes.ofText "a;b\n )")).Scans
        [⟨⟨1, 0, 0⟩, .symbol (Bytes.ofText "a")⟩] ⟨⟨1, 1, 1⟩, Bytes.ofText ";b\n )"⟩ :=
      .cons rfl (.nil _)
    have gap : Blank.Gap (Bytes.ofText ";b\n ") :=
      @Blank.Gap.comment (Bytes.ofText "b") (Bytes.ofText " ") (by decide) (.blank (by decide) .nil)
    rcases @parseDatum_reads_exactly_data empty.prepare rfl (Bytes.ofText "a;b\n )") with
      ⟨result, parsed, _, _, refuses⟩
    rcases refuses _ _ _ _ closeParen [] .symbol scanned gap (by decide) (by decide) rfl with
      ⟨consumed, whole, refused⟩
    have same : consumed = Bytes.ofText "a;b\n " := (List.append_cancel_right whole).symm
    rw [same] at refused
    exact ⟨result, parsed, refused⟩

end SymbolTable

end TailLisp

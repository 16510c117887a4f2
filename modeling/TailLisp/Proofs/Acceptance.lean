import TailLisp.Proofs.Interning
import TailLisp.Proofs.Soundness

namespace TailLisp

/-!
The reader accepts exactly the grammar.

Soundness and completeness together say what reading an item does: it takes
the one beginning of the tokens that is an item, gives the tree of that item
and reports its names in order.  A whole text is read as a sequence of items.
-/

open Grammar

namespace Grammar.Item

/-- Of two beginnings of one sequence of tokens that are items of a slot, both
are the same, and so are their trees. -/
theorem unique {slot : Slot} {tokens others rest remaining : List Token} {tree other : Tree}
    (first : Item slot tokens tree) (second : Item slot others other)
    (sequence : tokens ++ rest = others ++ remaining) : tokens = others ∧ tree = other := by
  have same := (Reader.completes_of_item first).unique (Reader.completes_of_item second) sequence
  exact ⟨same.1, same.2.1⟩

end Grammar.Item

/-! ## Items and sequences of items -/

theorem Grammar.flatMap_tokens_ne_nil {slot : Slot} {parts : List Passage} (nonempty : parts ≠ [])
    (items : forall part, part ∈ parts -> Item slot part.tokens part.tree) :
    parts.flatMap Passage.tokens ≠ [] := by
  rcases parts with _ | ⟨part, parts⟩
  · exact (nonempty rfl).elim
  · rw [List.flatMap_cons]
    exact List.append_ne_nil_of_left_ne_nil (items part (by simp)).tokens_ne_nil _

namespace Reader

/-- What tokens complete in a slot is the tree of an item, and the names on the
way are those of the tree. -/
theorem completes_iff {slot : Slot} {tokens : List Token} {tree : Tree} {names : List Bytes} :
    Action.Completes (.settle (.waiting (.start slot))) tokens tree names ↔
      names = tree.names ∧ Item slot tokens tree := by
  constructor
  · intro completed
    have item := item_of_completes completed
    have sequence : tokens ++ [] = tokens ++ [] := rfl
    have same := completed.unique (completes_of_item item) sequence
    exact ⟨same.2.2, item⟩
  · rintro ⟨sameNames, item⟩
    rw [sameNames]
    exact completes_of_item item

/-- Reading an item succeeds exactly with an item of the slot, and reports the
names of its tree. -/
theorem read_eq_ok_iff {slot : Slot} {cursor ending : Cursor} {tree : Tree}
    {names : List Bytes} :
    read slot cursor = { outcome := .ok tree, names := names, cursor := ending } ↔
      names = tree.names ∧
        Exists fun tokens => cursor.Scans tokens ending ∧ Item slot tokens tree := by
  rw [read_eq_iff]
  constructor
  · rintro ⟨tokens, scanned, completed⟩
    rcases completes_iff.1 completed with ⟨sameNames, item⟩
    exact ⟨sameNames, tokens, scanned, item⟩
  · rintro ⟨sameNames, tokens, scanned, item⟩
    exact ⟨tokens, scanned, completes_iff.2 ⟨sameNames, item⟩⟩

theorem read_outcome_eq_ok {slot : Slot} {cursor : Cursor} {tree : Tree}
    (done : (read slot cursor).outcome = .ok tree) :
    (read slot cursor).names = tree.names ∧
      Exists fun tokens => cursor.Scans tokens (read slot cursor).cursor ∧
        Item slot tokens tree := by
  apply read_eq_ok_iff.1
  rw [← done]

theorem readAll_of_ok {slot : Slot} {cursor : Cursor} {tree : Tree}
    (done : (read slot cursor).outcome = .ok tree) :
    readAll slot cursor =
      let first := read slot cursor
      let after := first.cursor.skipBlank
      if after.atEnd then
        { items := [tree], fault := none, names := first.names, cursor := after }
      else
        let later := readAll slot after
        { later with items := tree :: later.items, names := first.names ++ later.names } := by
  rw [readAll]
  split
  · next failed => cases failed.symm.trans done
  · next alsoDone =>
      cases alsoDone.symm.trans done
      rfl

/-- A text that consists of items is read without a fault. -/
theorem readAll_of_parts {slot : Slot} {parts : List Passage} {cursor ending : Cursor}
    (nonempty : parts ≠ [])
    (items : forall part, part ∈ parts -> Item slot part.tokens part.tree)
    (scanned : cursor.Scans (parts.flatMap Passage.tokens) ending)
    (ended : ending.skipBlank.atEnd = true) :
    readAll slot cursor =
      { items := parts.map Passage.tree
        fault := none
        names := parts.flatMap fun part => part.tree.names
        cursor := ending.skipBlank } := by
  induction parts generalizing cursor with
  | nil => exact (nonempty rfl).elim
  | cons part parts inductionHypothesis =>
      rw [List.flatMap_cons] at scanned
      rcases scanned.of_append with ⟨middle, first, others⟩
      have done := read_eq_ok_iff.2 ⟨rfl, part.tokens, first, items part (by simp)⟩
      have stepped := readAll_of_ok (congrArg Reading.outcome done)
      rw [stepped, done]
      cases parts with
      | nil =>
          cases others
          simp only [ended, if_true, List.map_cons, List.map_nil, List.flatMap_cons,
            List.flatMap_nil, List.append_nil]
      | cons next parts =>
          have otherItems : forall part, part ∈ next :: parts ->
              Item slot part.tokens part.tree :=
            fun part member => items part (List.mem_cons_of_mem _ member)
          have found := flatMap_tokens_ne_nil (List.cons_ne_nil _ _) otherItems
          have later := inductionHypothesis (List.cons_ne_nil _ _) otherItems
            ((Cursor.scans_skipBlank found).2 others)
          -- A token follows, so the text does not end behind the first item.
          have more := others.not_atEnd found
          simp only [more, later]
          rfl

/-- A text that is read without a fault consists of items. -/
theorem parts_of_readAll {slot : Slot} {cursor : Cursor}
    (faultless : (readAll slot cursor).fault = none) :
    Exists fun parts => Exists fun ending => parts ≠ [] ∧
      (forall part, part ∈ parts -> Item slot part.tokens part.tree) ∧
        cursor.Scans (parts.flatMap Passage.tokens) ending ∧ ending.skipBlank.atEnd = true := by
  fun_induction readAll slot cursor with
  | case1 cursor first fault failed => cases faultless
  | case2 cursor first tree done after ended =>
      rcases read_outcome_eq_ok done with ⟨_, tokens, scanned, item⟩
      refine ⟨[⟨tokens, tree⟩], first.cursor, by simp, ?_, ?_, ended⟩
      · intro part member
        rw [List.mem_singleton.1 member]
        exact item
      · rw [List.flatMap_singleton]
        exact scanned
  | case3 cursor first tree done after more later inductionHypothesis =>
      rcases read_outcome_eq_ok done with ⟨_, tokens, scanned, item⟩
      rcases inductionHypothesis faultless with ⟨parts, ending, nonempty, items, others, ended⟩
      refine ⟨⟨tokens, tree⟩ :: parts, ending, by simp, ?_, ?_, ended⟩
      · intro part member
        rcases List.mem_cons.1 member with same | member
        · rw [same]
          exact item
        · exact items part member
      · rw [List.flatMap_cons]
        have found := flatMap_tokens_ne_nil nonempty items
        exact scanned.append ((Cursor.scans_skipBlank found).1 others)

end Reader

/-! ## Reading into a symbol table -/

namespace SymbolTable

theorem readItem_of_item {table : SymbolTable} {slot : Slot} {cursor ending : Cursor}
    {tokens : List Token} {tree : Tree} (scanned : cursor.Scans tokens ending)
    (item : Item slot tokens tree) :
    table.readItem slot cursor =
      { outcome := .ok (tree.map (table.insertAll tree.names).resolve)
        table := table.insertAll tree.names
        cursor := ending } := by
  have done := Reader.read_eq_ok_iff.2 ⟨rfl, tokens, scanned, item⟩
  rw [readItem, done]
  rfl

theorem item_of_readItem {table : SymbolTable} {slot : Slot} {cursor : Cursor}
    {node : Node SymbolId} (done : (table.readItem slot cursor).outcome = .ok node) :
    Exists fun tokens => Exists fun tree =>
      cursor.Scans tokens (table.readItem slot cursor).cursor ∧
      Item slot tokens tree ∧
        (table.readItem slot cursor).table = table.insertAll tree.names ∧
          node = tree.map (table.insertAll tree.names).resolve := by
  rw [readItem] at done
  cases outcome : (Reader.read slot cursor).outcome with
  | error fault =>
      rw [outcome] at done
      cases done
  | ok tree =>
      rw [outcome] at done
      rcases Reader.read_outcome_eq_ok outcome with ⟨names, tokens, scanned, item⟩
      rw [names] at done
      refine ⟨tokens, tree, scanned, item, ?_, ?_⟩
      · rw [readItem, names]
      · cases done
        rfl

/-- A ready table is filled with the names of whatever is read. -/
theorem parseForms_of_ready {table : SymbolTable} (ready : table.ready = true) (text : Bytes) :
    let batch := Reader.readAll (.code false) (.ofText text)
    let filled := table.insertAll batch.names
    table.parseForms text =
      .ok { outcome := (batch.map filled.resolve).outcome
            table := filled
            cursor := batch.cursor } := by
  rw [parseForms, readForms, checkReady, if_pos ready]
  rfl

/-- A text that consists of items is read as a program. -/
theorem parseForms_of_parts {table : SymbolTable} {text : Bytes} {parts : List Passage}
    {ending : Cursor} (ready : table.ready = true) (nonempty : parts ≠ [])
    (items : forall part, part ∈ parts -> Item (.code false) part.tokens part.tree)
    (scanned : (Cursor.ofText text).Scans (parts.flatMap Passage.tokens) ending)
    (ended : ending.skipBlank.atEnd = true) :
    let filled := table.insertAll (parts.flatMap fun part => part.tree.names)
    table.parseForms text =
      .ok { outcome := .ok (parts.map fun part => part.tree.map filled.resolve)
            table := filled
            cursor := ending.skipBlank } := by
  have batch := Reader.readAll_of_parts nonempty items scanned ended
  rw [parseForms, readForms, checkReady, if_pos ready, readItems, batch]
  simp only [Batch.map, Batch.outcome, List.map_map]
  rfl

theorem parseForms_of_item {table : SymbolTable} {text : Bytes} {tokens : List Token} {tree : Tree}
    {ending : Cursor} (ready : table.ready = true) (item : Item (.code false) tokens tree)
    (scanned : (Cursor.ofText text).Scans tokens ending) (ended : ending.skipBlank.atEnd = true) :
    table.parseForms text =
      .ok { outcome := .ok [tree.map (table.insertAll tree.names).resolve]
            table := table.insertAll tree.names
            cursor := ending.skipBlank } := by
  have single : forall part, part ∈ [Passage.mk tokens tree] ->
      Item (.code false) part.tokens part.tree :=
    List.forall_mem_singleton.2 item
  have parsed := parseForms_of_parts ready (List.cons_ne_nil _ _) single
    (by rwa [List.flatMap_singleton]) ended
  rwa [List.flatMap_singleton] at parsed

/-- A program that is read consists of items. -/
theorem parts_of_parseForms {table : SymbolTable} {text : Bytes}
    {result : Interned (List (Node SymbolId))} {forms : List (Node SymbolId)}
    (parsed : table.parseForms text = .ok result) (done : result.outcome = .ok forms) :
    table.ready = true ∧ Exists fun parts => Exists fun ending => parts ≠ [] ∧
      (forall part, part ∈ parts -> Item (.code false) part.tokens part.tree) ∧
        (Cursor.ofText text).Scans (parts.flatMap Passage.tokens) ending ∧
          ending.skipBlank.atEnd = true := by
  by_cases ready : table.ready = true
  · refine ⟨ready, ?_⟩
    rw [parseForms, readForms, checkReady, if_pos ready] at parsed
    cases parsed
    apply Reader.parts_of_readAll
    cases fault : (Reader.readAll (.code false) (.ofText text)).fault with
    | none => rfl
    | some found =>
        simp only [Batch.outcome, Batch.map, fault] at done
        cases done
  · rw [parseForms, readForms, checkReady, if_neg ready] at parsed
    cases parsed

/-- The names of a filled table include those of each item read into it. -/
theorem holds_insertAll (table : SymbolTable) {parts : List Passage} {part : Passage}
    (member : part ∈ parts) :
    (table.insertAll (parts.flatMap fun part => part.tree.names)).Holds part.tree := by
  intro name arrives
  exact mem_insertAll.2 (Or.inr (List.mem_flatMap.2 ⟨part, member, arrives⟩))

/-- The forms of a program have the names with which they were written. -/
theorem map_nameOf_forms {table : SymbolTable} (ready : table.ready = true)
    (parts : List Passage) :
    let filled := table.insertAll (parts.flatMap fun part => part.tree.names)
    (parts.map fun part => part.tree.map filled.resolve).map (Node.map filled.nameOf) =
      parts.map fun part => part.tree.map Reference.spelling := by
  intro filled
  rw [List.map_map]
  apply List.map_congr_left
  intro part member
  exact map_nameOf_resolve (holds_insertAll table member) ((ready_insertAll table _).trans ready)

/-- A form of a program is an item whose names are held afterwards. -/
theorem item_of_parseForms {table : SymbolTable} {text : Bytes}
    {result : Interned (List (Node SymbolId))} {forms : List (Node SymbolId)}
    {form : Node SymbolId} (parsed : table.parseForms text = .ok result)
    (done : result.outcome = .ok forms) (member : form ∈ forms) :
    result.table.ready = true ∧ Exists fun tokens => Exists fun tree =>
      Item (.code false) tokens tree ∧
      (forall token, token ∈ tokens -> Cursor.Finds token) ∧
        result.table.Holds tree ∧ form = tree.map result.table.resolve := by
  rcases parts_of_parseForms parsed done with
    ⟨ready, parts, ending, nonempty, items, scanned, ended⟩
  have expected := parseForms_of_parts ready nonempty items scanned ended
  cases parsed.symm.trans expected
  cases done
  rcases List.mem_map.1 member with ⟨part, inside, same⟩
  refine ⟨(ready_insertAll table _).trans ready, part.tokens, part.tree, items part inside, ?_,
    holds_insertAll table inside, same.symm⟩
  intro token inPart
  exact scanned.finds token (List.mem_flatMap.2 ⟨part, inside, inPart⟩)

/-! ## Acceptance -/

/-- An item is read exactly if the tokens begin with one. -/
theorem readItem_ok_iff (table : SymbolTable) (slot : Slot) (cursor : Cursor) :
    (Exists fun node => (table.readItem slot cursor).outcome = .ok node) ↔
      Exists fun tokens => Exists fun tree =>
        tokens <+: cursor.tokens.1 ∧ Item slot tokens tree := by
  constructor
  · rintro ⟨node, done⟩
    rcases item_of_readItem done with ⟨tokens, tree, scanned, item, _⟩
    exact ⟨tokens, tree, Cursor.isPrefix_tokens_iff.2 ⟨_, scanned⟩, item⟩
  · rintro ⟨tokens, tree, beginning, item⟩
    rcases Cursor.isPrefix_tokens_iff.1 beginning with ⟨ending, scanned⟩
    exact ⟨_, congrArg Interned.outcome (readItem_of_item scanned item)⟩

/-- A program is read exactly if its text is a row of items. -/
theorem parseForms_ok_iff {table : SymbolTable} (ready : table.ready = true) (text : Bytes) :
    (Exists fun result => Exists fun forms =>
      table.parseForms text = .ok result ∧ result.outcome = .ok forms) ↔
      Exists fun parts : List Passage => parts ≠ [] ∧
        (forall part, part ∈ parts -> Item (.code false) part.tokens part.tree) ∧
          Exists fun pos => Exists fun after => (Cursor.ofText text).tokens =
            (parts.flatMap Passage.tokens, .finish pos, after) := by
  constructor
  · rintro ⟨result, forms, parsed, done⟩
    rcases parts_of_parseForms parsed done with
      ⟨_, parts, ending, nonempty, items, scanned, ended⟩
    exact ⟨parts, nonempty, items, Cursor.tokens_eq_finish_iff.2 ⟨ending, scanned, ended⟩⟩
  · rintro ⟨parts, nonempty, items, whole⟩
    rcases Cursor.tokens_eq_finish_iff.1 whole with ⟨ending, scanned, ended⟩
    exact ⟨_, _, parseForms_of_parts ready nonempty items scanned ended, rfl⟩

/-- The reader of code accepts exactly the grammar.  An item is read if some
beginning of the tokens is one.  There is only one such beginning and it has
only one tree; the reader stops right behind it and returns that tree, with the
names of its symbols in a ready table.  A text is read if it can be scanned to
its end and its tokens are one or more items in a row. -/
theorem reads_exactly_grammar (table : SymbolTable) :
    (forall cursor : Cursor,
      ((Exists fun node => (table.readItem (.code false) cursor).outcome = .ok node) ↔
        Exists fun tokens => Exists fun tree =>
          tokens <+: cursor.tokens.1 ∧ Item (.code false) tokens tree) ∧
      forall tokens tree, tokens <+: cursor.tokens.1 -> Item (.code false) tokens tree ->
        (forall others other, others <+: cursor.tokens.1 -> Item (.code false) others other ->
          others = tokens ∧ other = tree) ∧
        Exists fun node => Exists fun filled => Exists fun ending =>
          table.readItem (.code false) cursor =
            { outcome := .ok node, table := filled, cursor := ending } ∧
          cursor.Scans tokens ending ∧
          node = tree.map filled.resolve ∧
          (table.ready = true -> node.map filled.nameOf = tree.map Reference.spelling)) ∧
    (table.ready = true -> forall text : Bytes,
      ((Exists fun result => Exists fun forms =>
        table.parseForms text = .ok result ∧ result.outcome = .ok forms) ↔
        Exists fun parts : List Passage => parts ≠ [] ∧
          (forall part, part ∈ parts -> Item (.code false) part.tokens part.tree) ∧
            Exists fun pos => Exists fun after => (Cursor.ofText text).tokens =
              (parts.flatMap Passage.tokens, .finish pos, after)) ∧
      forall parts : List Passage, parts ≠ [] ->
        (forall part, part ∈ parts -> Item (.code false) part.tokens part.tree) ->
        (Exists fun pos => Exists fun after => (Cursor.ofText text).tokens =
          (parts.flatMap Passage.tokens, .finish pos, after)) ->
        Exists fun result => Exists fun forms =>
          table.parseForms text = .ok result ∧ result.outcome = .ok forms ∧
            forms.map (Node.map result.table.nameOf) =
              parts.map fun part => part.tree.map Reference.spelling) := by
  constructor
  · intro cursor
    refine ⟨readItem_ok_iff table (.code false) cursor, ?_⟩
    intro tokens tree beginning item
    constructor
    · rintro others other ⟨later, otherWhole⟩ otherItem
      rcases beginning with ⟨rest, whole⟩
      exact otherItem.unique item (otherWhole.trans whole.symm)
    · rcases Cursor.isPrefix_tokens_iff.1 beginning with ⟨ending, scanned⟩
      refine ⟨_, _, _, readItem_of_item scanned item, scanned, rfl, ?_⟩
      intro ready
      have held : (table.insertAll tree.names).Holds tree :=
        fun name arrives => mem_insertAll.2 (Or.inr arrives)
      exact map_nameOf_resolve held ((ready_insertAll table _).trans ready)
  · intro ready text
    refine ⟨parseForms_ok_iff ready text, ?_⟩
    intro parts nonempty items whole
    rcases Cursor.tokens_eq_finish_iff.1 whole with ⟨ending, scanned, ended⟩
    refine ⟨_, _, parseForms_of_parts ready nonempty items scanned ended, rfl, ?_⟩
    rw [List.map_map]
    apply List.map_congr_left
    intro part member
    exact map_nameOf_resolve (holds_insertAll table member)
      ((ready_insertAll table _).trans ready)

/-- A call that is not the last expression of its body. -/
theorem reads_exactly_grammar_body :
    (Exists fun node =>
      (empty.prepare.readItem (.code false) (.ofText (Bytes.ofText "(begin (f) x)"))).outcome =
        .ok node) ∧
    Exists fun result => Exists fun forms =>
      empty.prepare.parseForms (Bytes.ofText "(begin (f) x)") = .ok result ∧
        result.outcome = .ok forms ∧
          forms.map (Node.map result.table.nameOf) =
            [.begin ⟨⟨1, 0, 0⟩, false⟩
              [.list ⟨⟨1, 7, 7⟩, false⟩ (.symbol ⟨⟨1, 8, 8⟩, false⟩ (Bytes.ofText "f")) [],
                .symbol ⟨⟨1, 11, 11⟩, false⟩ (Bytes.ofText "x")]] := by
  have call : Item (.code false)
      [⟨⟨1, 7, 7⟩, .opening⟩, ⟨⟨1, 8, 8⟩, .symbol (Bytes.ofText "f")⟩, ⟨⟨1, 9, 9⟩, .closing⟩]
      (.list ⟨⟨1, 7, 7⟩, false⟩ (.symbol ⟨⟨1, 8, 8⟩, false⟩ (.named (Bytes.ofText "f"))) []) := by
    apply @Item.list (.code false) _ _ ⟨[⟨⟨1, 8, 8⟩, .symbol (Bytes.ofText "f")⟩], _⟩ [] rfl
    intro part member
    rw [List.mem_singleton.1 member]
    exact .atom rfl
  have name : Item (.code false) [⟨⟨1, 11, 11⟩, .symbol (Bytes.ofText "x")⟩]
      (.symbol ⟨⟨1, 11, 11⟩, false⟩ (.named (Bytes.ofText "x"))) := .atom rfl
  have body : Item (.code false) _ _ :=
    @Item.begin false ⟨1, 0, 0⟩ ⟨1, 1, 1⟩ _ _ ⟨1, 12, 12⟩ [⟨_, _⟩]
      (fun part member => List.mem_singleton.1 member ▸ call) name
  have single : forall part, part ∈ [Passage.mk _ _] -> Item (.code false) part.tokens part.tree :=
    fun part member => List.mem_singleton.1 member ▸ body
  have scanned : (Cursor.ofText (Bytes.ofText "(begin (f) x)")).Scans _ ⟨⟨1, 13, 13⟩, []⟩ :=
    .cons rfl (.cons rfl (.cons rfl (.cons rfl (.cons rfl (.cons rfl (.cons rfl (.nil _)))))))
  have accepted := reads_exactly_grammar empty.prepare
  constructor
  · exact (accepted.1 _).1.2 ⟨_, _, Cursor.isPrefix_tokens_iff.2 ⟨_, scanned⟩, body⟩
  · exact (accepted.2 rfl _).2 _
      (List.cons_ne_nil _ _) single (Cursor.tokens_eq_finish_iff.2 ⟨_, scanned, rfl⟩)

end SymbolTable

end TailLisp

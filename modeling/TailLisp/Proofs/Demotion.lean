import TailLisp.Proofs.NodePlaces
import TailLisp.Proofs.Relocation

namespace TailLisp

/-!
Reading an expression as the last of a body and demoting it.

Of an expression in a body it is known only afterwards whether it was the last.
So it is read for a tail slot, and when another expression follows, its tree is
demoted.  This gives what reading outside tail position would have given at
once: the same tree from the same tokens, with the same names.  The one
difference is in when a `recur` out of place is refused.  Outside tail position
it is refused when its word is met, and in a tail slot only when the tree is
demoted, after all of the expression has been read.

A `recur` is out of place if it stands on the way out of the tree.  The way may
divide at a conditional, and demotion complains about the leftmost `recur`, which
is also the one that stands first in the text.
-/

open Grammar

/-! ## The way out of a tree -/

namespace Node

variable {Symbol Target : Type}

mutual

/-- The `recur`s on the way out of a tree, from left to right.  The way leads
through the last expression of a `begin` and through the branches of a
conditional, and through nothing else. -/
def exits : Node Symbol -> List (Node Symbol)
  | recur mark args => [recur mark args]
  | begin _ body => exitsOfLast body
  | conditional _ _ consequent alternative => consequent.exits ++ alternative.exits
  | _ => []

def exitsOfLast : List (Node Symbol) -> List (Node Symbol)
  | [] => []
  | [node] => node.exits
  | _ :: next :: nodes => exitsOfLast (next :: nodes)

end

theorem exitsOfLast_concat (init : List (Node Symbol)) (last : Node Symbol) :
    exitsOfLast (init ++ [last]) = last.exits := by
  induction init with
  | nil => rfl
  | cons first init inductionHypothesis =>
      cases init with
      | nil => rfl
      | cons second init => exact inductionHypothesis

theorem exits_begin (mark : Mark) (init : List (Node Symbol)) (last : Node Symbol) :
    (begin mark (init ++ [last])).exits = last.exits :=
  exitsOfLast_concat init last

theorem exits_conditional (mark : Mark) (test consequent alternative : Node Symbol) :
    (conditional mark test consequent alternative).exits =
      consequent.exits ++ alternative.exits :=
  rfl

theorem map_begin (replace : Symbol -> Target) (mark : Mark) (init : List (Node Symbol))
    (last : Node Symbol) :
    (begin mark (init ++ [last])).map replace =
      begin mark (init.map (Node.map replace) ++ [last.map replace]) := by
  rw [map, mapSeries_eq, List.map_append, List.map_singleton]

theorem exits_map (replace : Symbol -> Target) (node : Node Symbol) :
    (node.map replace).exits = node.exits.map (Node.map replace) := by
  induction node with
  | begin mark body bodySame =>
      rcases List.eq_nil_or_concat' body with nothing | ⟨init, last, same⟩
      · rw [nothing]
        rfl
      · subst same
        rw [map_begin, exits_begin, exits_begin, bodySame last (by simp)]
  | conditional mark test consequent alternative _ consequentSame alternativeSame =>
      rw [map, exits_conditional, exits_conditional, consequentSame, alternativeSame,
        List.map_append]
  | _ => rfl

/-- What is on the way out of a tree is inside the tree. -/
theorem mem_preorder_of_mem_exits {node exit : Node Symbol} (member : exit ∈ node.exits) :
    exit ∈ node.preorder := by
  induction node with
  | recur mark args =>
      rw [List.mem_singleton.1 member]
      exact self_mem_preorder _
  | begin mark body inBody =>
      rcases List.eq_nil_or_concat' body with nothing | ⟨init, last, same⟩
      · subst nothing
        cases member
      · subst same
        rw [exits_begin] at member
        have isLast : last ∈ init ++ [last] := by simp
        rw [preorder, preorderOfSeries_eq]
        exact List.mem_cons_of_mem _ (List.mem_flatMap.2 ⟨last, isLast, inBody last isLast member⟩)
  | conditional mark test consequent alternative _ inConsequent inAlternative =>
      rw [exits_conditional, List.mem_append] at member
      rw [preorder]
      apply List.mem_cons_of_mem
      apply List.mem_append_right
      exact List.mem_append.2 (member.imp inConsequent inAlternative)
  | _ => cases member

/-- A tree with no `recur` on its way out can be demoted. -/
theorem exists_demoted_of_no_exits {node : Node Symbol} (free : node.exits = []) :
    Exists fun demoted => node.demote = .ok demoted := by
  induction node with
  | recur mark args => cases free
  | begin mark body demotes =>
      rcases List.eq_nil_or_concat' body with nothing | ⟨init, last, same⟩
      · subst nothing
        exact ⟨_, rfl⟩
      · subst same
        rw [exits_begin] at free
        rcases demotes last (by simp) free with ⟨demoted, done⟩
        exact ⟨_, demote_begin_eq_ok.2 ⟨demoted, done, rfl⟩⟩
  | conditional mark test consequent alternative _ consequentDemotes alternativeDemotes =>
      rw [exits_conditional, List.append_eq_nil_iff] at free
      rcases consequentDemotes free.1 with ⟨left, leftDone⟩
      rcases alternativeDemotes free.2 with ⟨right, rightDone⟩
      exact ⟨_, demote_conditional_eq_ok.2 ⟨left, right, leftDone, rightDone, rfl⟩⟩
  | _ => exact ⟨_, rfl⟩

/-- Demotion stops at the leftmost `recur` on the way out. -/
theorem demote_of_exits {node first : Node Symbol} {others : List (Node Symbol)}
    (found : node.exits = first :: others) : node.demote = .error first.pos := by
  induction node generalizing others with
  | recur mark args =>
      cases found
      rfl
  | begin mark body stops =>
      rcases List.eq_nil_or_concat' body with nothing | ⟨init, last, same⟩
      · subst nothing
        cases found
      · subst same
        rw [exits_begin] at found
        rw [demote, demoteLast_concat, stops last (by simp) found]
        rfl
  | conditional mark test consequent alternative _ consequentStops alternativeStops =>
      rw [exits_conditional, List.append_eq_cons_iff] at found
      rcases found with ⟨free, found⟩ | ⟨between, found, _⟩
      · -- The alternative is demoted after the consequent has been.
        rcases exists_demoted_of_no_exits free with ⟨left, leftDone⟩
        rw [demote, leftDone, alternativeStops found]
        rfl
      · rw [demote, consequentStops found]
        rfl
  | _ => cases found

theorem exits_eq_nil_of_demote {node demoted : Node Symbol} (demotes : node.demote = .ok demoted) :
    node.exits = [] := by
  cases found : node.exits with
  | nil => rfl
  | cons first others => cases demotes.symm.trans (demote_of_exits found)

theorem demote_eq_error_iff {node : Node Symbol} {pos : Position} :
    node.demote = .error pos ↔
      Exists fun first => Exists fun others => node.exits = first :: others ∧ pos = first.pos := by
  constructor
  · intro failed
    cases found : node.exits with
    | nil =>
        rcases exists_demoted_of_no_exits found with ⟨demoted, done⟩
        cases failed.symm.trans done
    | cons first others =>
        cases failed.symm.trans (demote_of_exits found)
        exact ⟨first, others, rfl, rfl⟩
  · rintro ⟨first, others, found, same⟩
    rw [same]
    exact demote_of_exits found

theorem exists_demote_eq_error_iff {node : Node Symbol} :
    (Exists fun pos => node.demote = .error pos) ↔ node.exits ≠ [] := by
  constructor
  · rintro ⟨pos, failed⟩
    rcases demote_eq_error_iff.1 failed with ⟨first, others, found, _⟩
    rw [found]
    exact List.cons_ne_nil first others
  · intro found
    rcases List.exists_cons_of_ne_nil found with ⟨first, others, same⟩
    exact ⟨first.pos, demote_of_exits same⟩

theorem names_of_demote {tree demoted : Tree} (demotes : tree.demote = .ok demoted) :
    demoted.names = tree.names := by
  rw [names, names, symbols_eq_of_bare_eq (bare_of_demote demotes)]

/-- Replacing symbols before demoting or afterwards is the same. -/
theorem demote_map (replace : Symbol -> Target) (node : Node Symbol) :
    (node.map replace).demote = node.demote.map (Node.map replace) := by
  induction node with
  | begin mark body bodySame =>
      rcases List.eq_nil_or_concat' body with nothing | ⟨init, last, same⟩
      · rw [nothing]
        rfl
      · subst same
        rw [map_begin, demote, demote, demoteLast_concat, demoteLast_concat,
          bodySame last (by simp)]
        cases last.demote with
        | error pos => rfl
        | ok demoted =>
            exact congrArg Except.ok (map_begin replace (.plain mark.pos) init demoted).symm
  | conditional mark test consequent alternative _ consequentSame alternativeSame =>
      rw [map, demote, demote, consequentSame, alternativeSame]
      cases consequent.demote with
      | error pos => rfl
      | ok left => cases alternative.demote <;> rfl
  | _ => rfl

end Node

/-! ## The order of the text -/

namespace Grammar.Item

/-- What is on the way out of an item stands at one of its tokens. -/
theorem exists_token_of_mem_exits {slot : Slot} {tokens : List Token} {tree exit : Tree}
    (item : Item slot tokens tree) (member : exit ∈ tree.exits) :
    Exists fun token => token ∈ tokens ∧ exit.pos = token.pos := by
  have placed := @Placed.of_item _ id _ _ _ item
  rw [Node.map_id] at placed
  exact placed.exists_token (Node.mem_preorder_of_mem_exits member)

/-- The `recur`s on the way out stand in the text from left to right.  Where the
first token stands does not matter: if it belongs to a `recur`, there is no other. -/
theorem pairwise_exits {slot : Slot} {tokens : List Token} {tree : Tree}
    (item : Item slot tokens tree)
    (growing : tokens.tail.Pairwise fun earlier later => earlier.pos.offset < later.pos.offset) :
    tree.exits.Pairwise fun earlier later => earlier.pos.offset < later.pos.offset := by
  induction item with
  | atom atom =>
      rw [Node.exits_eq_nil_of_demote (Token.demote_of_atom atom)]
      exact .nil
  | @ticked slot pos tokens datum _ _ =>
      cases slot <;> exact .nil
  | begin _ _ _ lastOrdered =>
      rcases List.pairwise_append.1 (List.pairwise_cons.1 growing).2 with ⟨_, body, _⟩
      rcases List.pairwise_append.1 body with ⟨inLast, _, _⟩
      rw [Node.exits_begin]
      exact lastOrdered (inLast.sublist (List.tail_sublist _))
  | conditional _ consequent alternative _ consequentOrdered alternativeOrdered =>
      rcases List.pairwise_append.1 (List.pairwise_cons.1 growing).2 with ⟨_, branches, _⟩
      rcases List.pairwise_append.1 branches with ⟨inConsequent, later, across⟩
      rcases List.pairwise_append.1 later with ⟨inAlternative, _, _⟩
      have left := consequentOrdered (inConsequent.sublist (List.tail_sublist _))
      have right := alternativeOrdered (inAlternative.sublist (List.tail_sublist _))
      rw [Node.exits_conditional]
      refine List.pairwise_append.2 ⟨left, right, ?_⟩
      -- Between the branches the order is that of their tokens.
      intro exit exitMember other otherMember
      rcases consequent.exists_token_of_mem_exits exitMember with ⟨token, inTokens, pos⟩
      rcases alternative.exists_token_of_mem_exits otherMember with
        ⟨otherToken, inOtherTokens, otherPos⟩
      rw [pos, otherPos]
      exact across token inTokens otherToken (List.mem_append_left _ inOtherTokens)
  | recur args => exact List.pairwise_singleton _ _
  | _ => exact .nil

end Grammar.Item

/-! ## Reading behind a lookahead -/

/-- Reads the item that a scan begins, with the cursor behind the scan. -/
def Reader.readFrom (slot : Slot) (scan : Scan) (after : Cursor) : Reading :=
  match scan with
  | .finish pos =>
      { outcome := .error ((State.start slot).faultAtEnd pos), names := [], cursor := after }
  | .flaw pos error =>
      { outcome := .error { origin := pos, cause := .scan error }, names := [], cursor := after }
  | .token token =>
      match (State.start slot).step token with
      | .error fault => { outcome := .error fault, names := [], cursor := after }
      | .ok step => ((step.action.apply []).resume after).prepend step.interned.toList

namespace Reader

/-- To read an item is to look for a token and to read the item that it begins. -/
theorem read_eq_readFrom (slot : Slot) (cursor : Cursor) :
    read slot cursor = readFrom slot cursor.next.1 cursor.next.2 := by
  rw [read, resume_eq]
  rcases cursor.next with ⟨scan, after⟩
  cases scan <;> rfl

/-- Reading behind a token succeeds exactly with an item that begins with it. -/
theorem readFrom_eq_ok_iff {slot : Slot} {scan : Scan} {after ending : Cursor} {tree : Tree}
    {names : List Bytes} :
    readFrom slot scan after = { outcome := .ok tree, names := names, cursor := ending } ↔
      names = tree.names ∧ Exists fun token => Exists fun rest =>
        scan = .token token ∧ after.Scans rest ending ∧ Item slot (token :: rest) tree := by
  constructor
  · intro result
    cases scan with
    | finish pos => cases congrArg Reading.outcome result
    | flaw pos error => cases congrArg Reading.outcome result
    | token token =>
        rw [readFrom] at result
        cases stepped : (State.start slot).step token with
        | error fault =>
            rw [stepped] at result
            cases congrArg Reading.outcome result
        | ok step =>
            rw [stepped] at result
            dsimp only at result
            cases found : (step.action.apply []).resume after with
            | mk outcome laterNames stop =>
                rw [found] at result
                cases result
                rcases Action.resume_eq_iff.1 found with ⟨rest, scanned, completed⟩
                rcases completes_iff.1 (.wait stepped completed) with ⟨sameNames, item⟩
                exact ⟨sameNames, token, rest, rfl, scanned, item⟩
  · rintro ⟨sameNames, token, rest, isToken, scanned, item⟩
    cases completes_iff.2 ⟨sameNames, item⟩ with
    | wait stepped completed =>
        rw [isToken, readFrom, stepped]
        dsimp only
        rw [Action.resume_eq_iff.2 ⟨rest, scanned, completed⟩]
        rfl

end Reader

namespace SymbolTable

/-- Reads the item that a scan begins into a table. -/
def readItemFrom (table : SymbolTable) (slot : Slot) (scan : Scan) (after : Cursor) :
    Interned (Node SymbolId) :=
  let reading := Reader.readFrom slot scan after
  let filled := table.insertAll reading.names
  { outcome := reading.outcome.map (Node.map filled.resolve)
    table := filled
    cursor := reading.cursor }

theorem readItem_eq_readItemFrom (table : SymbolTable) (slot : Slot) (cursor : Cursor) :
    table.readItem slot cursor = table.readItemFrom slot cursor.next.1 cursor.next.2 := by
  rw [readItem, readItemFrom, Reader.read_eq_readFrom]

theorem readItemFrom_eq_ok_iff {table filled : SymbolTable} {slot : Slot} {scan : Scan}
    {after ending : Cursor} {node : Node SymbolId} :
    table.readItemFrom slot scan after =
        { outcome := .ok node, table := filled, cursor := ending } ↔
      Exists fun token => Exists fun rest => Exists fun tree =>
        scan = .token token ∧ after.Scans rest ending ∧
        Item slot (token :: rest) tree ∧ filled = table.insertAll tree.names ∧
          node = tree.map filled.resolve := by
  constructor
  · intro result
    cases read : Reader.readFrom slot scan after with
    | mk outcome names stop =>
        rw [readItemFrom, read] at result
        cases outcome with
        | error fault => cases congrArg Interned.outcome result
        | ok tree =>
            rcases Reader.readFrom_eq_ok_iff.1 read with
              ⟨sameNames, token, rest, isToken, scanned, item⟩
            cases result
            rw [sameNames]
            exact ⟨token, rest, tree, isToken, scanned, item, rfl, rfl⟩
  · rintro ⟨token, rest, tree, isToken, scanned, item, sameTable, sameNode⟩
    have read := Reader.readFrom_eq_ok_iff.2 ⟨rfl, token, rest, isToken, scanned, item⟩
    rw [readItemFrom, read, sameNode, sameTable]
    rfl

/-- Reading outside tail position is reading in a tail slot and demoting. -/
theorem readItemFrom_outside_iff {table filled : SymbolTable} {scan : Scan}
    {after ending : Cursor} {form : Node SymbolId} :
    table.readItemFrom (.code false) scan after =
        { outcome := .ok form, table := filled, cursor := ending } ↔
      Exists fun candidate =>
        table.readItemFrom (.code true) scan after =
          { outcome := .ok candidate, table := filled, cursor := ending } ∧
        candidate.demote = .ok form := by
  constructor
  · intro result
    rcases readItemFrom_eq_ok_iff.1 result with
      ⟨token, rest, tree, isToken, scanned, item, sameTable, sameNode⟩
    rcases item.promote with ⟨candidate, inTail, demoted⟩
    have mapped := Node.demote_map filled.resolve candidate
    rw [demoted] at mapped
    -- The candidate brings the same names, so the same table is filled.
    rw [Node.names_of_demote demoted] at sameTable
    rw [sameNode]
    exact ⟨candidate.map filled.resolve, readItemFrom_eq_ok_iff.2
      ⟨token, rest, candidate, isToken, scanned, inTail, sameTable, rfl⟩, mapped⟩
  · rintro ⟨candidate, result, demoted⟩
    rcases readItemFrom_eq_ok_iff.1 result with
      ⟨token, rest, tree, isToken, scanned, item, sameTable, sameNode⟩
    rw [sameNode, Node.demote_map] at demoted
    cases treeDemoted : tree.demote with
    | error pos =>
        rw [treeDemoted] at demoted
        cases demoted
    | ok outside =>
        rw [treeDemoted] at demoted
        cases demoted
        rw [← Node.names_of_demote treeDemoted] at sameTable
        exact readItemFrom_eq_ok_iff.2 ⟨token, rest, outside, isToken, scanned,
          item.demote treeDemoted, sameTable, rfl⟩

theorem pairwise_exits_of_readItemFrom {table filled : SymbolTable} {slot : Slot} {scan : Scan}
    {after ending : Cursor} {node : Node SymbolId}
    (result : table.readItemFrom slot scan after =
      { outcome := .ok node, table := filled, cursor := ending }) :
    node.exits.Pairwise fun earlier later => earlier.pos.offset < later.pos.offset := by
  rcases readItemFrom_eq_ok_iff.1 result with
    ⟨token, rest, tree, isToken, scanned, item, _, sameNode⟩
  rw [sameNode, Node.exits_map, List.pairwise_map]
  simp only [Node.pos_map]
  exact item.pairwise_exits scanned.growing

end SymbolTable

/-- A body goes on behind its newest expression unless a `recur` is on the way out
of it.  The fault is at the leftmost one. -/
theorem Series.goOn_eq_error_iff {form : BodyForm} (inTail : form.endsInTail = true)
    {pos : Position} {newest : Tree} {older : List Tree} {fault : Fault} :
    Series.goOn { kind := .body form, pos := pos, items := newest :: older } = .error fault ↔
      Exists fun first => Exists fun others => newest.exits = first :: others ∧
        fault = .syntaxAt first.pos .recurOutsideTail := by
  rw [goOn]
  simp only [if_pos inTail]
  constructor
  · intro failed
    cases demoted : newest.demote with
    | ok outside =>
        rw [demoted] at failed
        cases failed
    | error place =>
        rw [demoted] at failed
        cases failed
        rcases Node.demote_eq_error_iff.1 demoted with ⟨first, others, found, same⟩
        exact ⟨first, others, found, congrArg (Fault.syntaxAt · .recurOutsideTail) same⟩
  · rintro ⟨first, others, found, same⟩
    rw [Node.demote_of_exits found, same]

namespace SymbolTable

/-- Reading for a tail slot and demoting is reading outside tail position.  An
expression that begins with a given token is read outside tail position exactly if
it is read in a tail slot and the tree can be demoted; the demoted tree is then the
one that is read outside, and both readings stop at the same place with the same
table.  A tree that was read cannot be demoted exactly if a `recur` is on the way
out of it, and then demotion stops at the one that stands before all others.  This
is where a body complains that goes on behind such an expression.  To read an item
at a cursor is to read it behind the next token. -/
theorem demoting_is_reading_outside (table : SymbolTable) (scan : Scan) (after : Cursor) :
    (forall form filled ending,
      table.readItemFrom (.code false) scan after =
          { outcome := .ok form, table := filled, cursor := ending } ↔
        Exists fun candidate =>
          table.readItemFrom (.code true) scan after =
            { outcome := .ok candidate, table := filled, cursor := ending } ∧
          candidate.demote = .ok form) ∧
    (forall candidate filled ending,
      table.readItemFrom (.code true) scan after =
          { outcome := .ok candidate, table := filled, cursor := ending } ->
        ((Exists fun pos => candidate.demote = .error pos) ↔ candidate.exits ≠ []) ∧
        forall pos, candidate.demote = .error pos ->
          Exists fun first => Exists fun others =>
            candidate.exits = first :: others ∧ pos = first.pos ∧
              forall other, other ∈ others -> first.pos.offset < other.pos.offset) ∧
    (forall form pos newest older fault, form.endsInTail = true ->
      (Series.goOn { kind := .body form, pos := pos, items := newest :: older } = .error fault ↔
        Exists fun first => Exists fun others => newest.exits = first :: others ∧
          fault = .syntaxAt first.pos .recurOutsideTail)) ∧
    forall slot cursor, cursor.next = (scan, after) ->
      table.readItem slot cursor = table.readItemFrom slot scan after := by
  refine ⟨?_, ?_, ?_, ?_⟩
  · intro form filled ending
    exact readItemFrom_outside_iff
  · intro candidate filled ending result
    constructor
    · exact Node.exists_demote_eq_error_iff
    · intro pos failed
      rcases Node.demote_eq_error_iff.1 failed with ⟨first, others, found, same⟩
      have ordered := pairwise_exits_of_readItemFrom result
      rw [found] at ordered
      exact ⟨first, others, found, same, (List.pairwise_cons.1 ordered).1⟩
  · intro form pos newest older fault inTail
    exact Series.goOn_eq_error_iff inTail
  · intro slot cursor found
    rw [readItem_eq_readItemFrom, found]

/-- A body whose last expression is a call, and a conditional with a `recur` in
both branches. -/
theorem demoting_is_reading_outside_branches :
    (Exists fun form => Exists fun filled =>
      empty.prepare.readItemFrom (.code false) (.token ⟨⟨1, 0, 0⟩, .opening⟩)
          ⟨⟨1, 1, 1⟩, Bytes.ofText "begin a (f))"⟩ =
        { outcome := .ok form, table := filled, cursor := ⟨⟨1, 13, 13⟩, []⟩ } ∧
      form.preorder.map (fun node => node.mark.tail) = [false, false, false, false]) ∧
    (Exists fun candidate => Exists fun first => Exists fun others =>
      (empty.prepare.readItem (.code true)
        (.ofText (Bytes.ofText "(if a (recur) (begin (recur)))"))).outcome = .ok candidate ∧
      candidate.demote = .error ⟨1, 6, 6⟩ ∧ candidate.exits = first :: others ∧
      (first :: others).map (fun node => node.pos.offset) = [6, 21] ∧
      forall other, other ∈ others -> first.pos.offset < other.pos.offset) ∧
    Series.goOn
        { kind := .body (.begin true)
          pos := ⟨1, 0, 0⟩
          items := [.recur ⟨⟨1, 7, 7⟩, true⟩ []] } =
      .error (.syntaxAt ⟨1, 7, 7⟩ .recurOutsideTail) := by
  refine ⟨?_, ?_, ?_⟩
  · have call : Item (.code true)
        [⟨⟨1, 9, 9⟩, .opening⟩, ⟨⟨1, 10, 10⟩, .symbol (Bytes.ofText "f")⟩,
          ⟨⟨1, 11, 11⟩, .closing⟩] _ :=
      @Item.list (.code true) _ _ ⟨[⟨⟨1, 10, 10⟩, .symbol (Bytes.ofText "f")⟩], _⟩ [] rfl
        (List.forall_mem_singleton.2 (.atom rfl))
    have name : Item (.code false) [⟨⟨1, 7, 7⟩, .symbol (Bytes.ofText "a")⟩] _ := .atom rfl
    have body := @Item.begin true ⟨1, 0, 0⟩ ⟨1, 1, 1⟩ _ _ ⟨1, 12, 12⟩ [⟨_, _⟩]
      (List.forall_mem_singleton.2 name) call
    have scanned : Cursor.Scans ⟨⟨1, 1, 1⟩, Bytes.ofText "begin a (f))"⟩ _ ⟨⟨1, 13, 13⟩, []⟩ :=
      .cons rfl (.cons rfl (.cons rfl (.cons rfl (.cons rfl (.cons rfl (.nil _))))))
    have inside := (@readItemFrom_eq_ok_iff empty.prepare _ _ _ _ _ _).2
      ⟨_, _, _, rfl, scanned, body, rfl, rfl⟩
    have demoting := demoting_is_reading_outside empty.prepare (.token ⟨⟨1, 0, 0⟩, .opening⟩)
      ⟨⟨1, 1, 1⟩, Bytes.ofText "begin a (f))"⟩
    exact ⟨_, _, (demoting.1 _ _ _).2 ⟨_, inside, rfl⟩, rfl⟩
  · have name : Item (.code false) [⟨⟨1, 4, 4⟩, .symbol (Bytes.ofText "a")⟩] _ := .atom rfl
    have left := @Item.recur ⟨1, 6, 6⟩ ⟨1, 7, 7⟩ ⟨1, 12, 12⟩ [] nofun
    have last := @Item.recur ⟨1, 21, 21⟩ ⟨1, 22, 22⟩ ⟨1, 27, 27⟩ [] nofun
    have right := @Item.begin true ⟨1, 14, 14⟩ ⟨1, 15, 15⟩ _ _ ⟨1, 28, 28⟩ [] nofun last
    have whole := @Item.conditional true ⟨1, 0, 0⟩ ⟨1, 1, 1⟩ _ _ _ _ _ _ ⟨1, 29, 29⟩ name left right
    have scanned : Cursor.Scans ⟨⟨1, 1, 1⟩, Bytes.ofText "if a (recur) (begin (recur)))"⟩ _
        ⟨⟨1, 30, 30⟩, []⟩ :=
      .cons rfl (.cons rfl (.cons rfl (.cons rfl (.cons rfl (.cons rfl (.cons rfl (.cons rfl
        (.cons rfl (.cons rfl (.cons rfl (.cons rfl (.nil _))))))))))))
    have inside := (@readItemFrom_eq_ok_iff empty.prepare _ _ _ _ _ _).2
      ⟨_, _, _, rfl, scanned, whole, rfl, rfl⟩
    have demoting := demoting_is_reading_outside empty.prepare (.token ⟨⟨1, 0, 0⟩, .opening⟩)
      ⟨⟨1, 1, 1⟩, Bytes.ofText "if a (recur) (begin (recur)))"⟩
    rcases (demoting.2.1 _ _ _ inside).2 _ rfl with ⟨first, others, found, _, before⟩
    have read := demoting.2.2.2 (.code true)
      (.ofText (Bytes.ofText "(if a (recur) (begin (recur)))")) rfl
    rw [inside] at read
    refine ⟨_, first, others, congrArg Interned.outcome read, rfl, found, ?_, before⟩
    rw [← found]
    rfl
  · have demoting := (demoting_is_reading_outside empty.prepare (.finish .start) ⟨.start, []⟩).2.2.1
    exact (demoting (.begin true) _ _ _ _ rfl).2 ⟨_, _, rfl, rfl⟩

end SymbolTable

end TailLisp

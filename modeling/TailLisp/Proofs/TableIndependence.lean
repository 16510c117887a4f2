import Mathlib.Data.List.Forall2
import TailLisp.Node.Outline
import TailLisp.Proofs.Acceptance

namespace TailLisp

/-!
What a symbol table can change.

The same text has different ids in different tables, because a table may hold
other names already.  Nothing else depends on the table.  With names for ids,
the result of reading a text is the same in every ready table: it can be stated
from the text alone.  Texts and outlines are made from names, and faults have
none, so all of them agree too.

In code a ticked datum is a `quote`; in data it is a list that begins with the
symbol `quote`, whose id a ready table has at hand.  That this id belongs to the
name `quote` is what being ready means.
-/

open Grammar

namespace Node

variable {Symbol Target : Type}

/-! ## Outlines of renamed trees -/

@[simp] theorem outlineSeries_eq (name : Symbol -> Bytes) (depth : Nat)
    (items : List (Node Symbol)) :
    outlineSeries name depth items = items.flatMap (outlineAt name depth) := by
  induction items with
  | nil => rfl
  | cons item items inductionHypothesis =>
      rw [outlineSeries, inductionHypothesis, List.flatMap_cons]

/-- The lines of one binding. -/
def outlineBinding (name : Symbol -> Bytes) (depth : Nat) (binding : Symbol × Node Symbol) :
    List OutlineLine :=
  { depth, text := name binding.1 ++ Bytes.ofText " =" } :: binding.2.outlineAt name (depth + 1)

@[simp] theorem outlineBindings_eq (name : Symbol -> Bytes) (depth : Nat)
    (bindings : List (Symbol × Node Symbol)) :
    outlineBindings name depth bindings = bindings.flatMap (outlineBinding name depth) := by
  induction bindings with
  | nil => rfl
  | cons binding bindings inductionHypothesis =>
      rcases binding with ⟨label, value⟩
      rw [outlineBindings, inductionHypothesis, List.flatMap_cons]
      rfl

/-- An outline is the same whether symbols are replaced before or named while
it is made. -/
theorem outlineAt_map (replace : Symbol -> Target) (name : Target -> Bytes) (depth : Nat)
    (node : Node Symbol) :
    (node.map replace).outlineAt name depth = node.outlineAt (name ∘ replace) depth := by
  have series (depth : Nat) (items : List (Node Symbol))
      (itemsSame : forall item, item ∈ items -> forall depth,
        (item.map replace).outlineAt name depth = item.outlineAt (name ∘ replace) depth) :
      outlineSeries name depth (mapSeries replace items) =
        outlineSeries (name ∘ replace) depth items := by
    rw [mapSeries_eq, outlineSeries_eq, outlineSeries_eq, List.flatMap_map]
    exact List.flatMap_congr fun item member => itemsSame item member depth
  -- The first words of a line name the kind of the node, which is kept.
  induction node generalizing depth with
  | pair mark car cdr carSame cdrSame =>
      rw [map, outlineAt, outlineAt, carSame, cdrSame]
      rfl
  | list mark first others firstSame othersSame =>
      rw [map, outlineAt, outlineAt, firstSame, series _ others othersSame]
      rfl
  | quote mark datum _ =>
      rw [map, outlineAt, outlineAt, print, printAt_map]
      rfl
  | begin mark body bodySame =>
      rw [map, outlineAt, outlineAt, series _ body bodySame]
      rfl
  | define mark label value valueSame =>
      rw [map, outlineAt, outlineAt, valueSame]
      rfl
  | conditional mark test consequent alternative testSame consequentSame alternativeSame =>
      rw [map, outlineAt, outlineAt, testSame, consequentSame, alternativeSame]
      rfl
  | scope mark kind bindings body bindingsSame bodySame =>
      have outlined : outlineBindings name (depth + 1) (mapBindings replace bindings) =
          outlineBindings (name ∘ replace) (depth + 1) bindings := by
        rw [mapBindings_eq, outlineBindings_eq, outlineBindings_eq, List.flatMap_map]
        refine List.flatMap_congr fun binding member => ?_
        exact congrArg (List.cons _) (bindingsSame binding member _)
      rw [map, outlineAt, outlineAt, outlined, series _ body bodySame]
      rfl
  | lambda mark label params body bodySame =>
      rw [map, outlineAt, outlineAt, series _ body bodySame, printParams, List.map_map]
      rfl
  | recur mark args argsSame =>
      rw [map, outlineAt, outlineAt, series _ args argsSame]
      rfl
  | _ => rfl

/-- Two trees, each with the ids of a table of its own, cannot be told apart by
their texts, their outlines or the marks of their nodes. -/
structure Alike (left right : SymbolTable) (first second : Node SymbolId) : Prop where
  printed : first.print left.nameOf = second.print right.nameOf
  outlined : first.outline left.nameOf = second.outline right.nameOf
  marked : (first.map fun _ => ()) = second.map fun _ => ()

/-- Trees with the same names are alike. -/
theorem alike_of_map_nameOf {left right : SymbolTable} {first second : Node SymbolId}
    (named : first.map left.nameOf = second.map right.nameOf) : Alike left right first second where
  printed := by
    have same := congrArg (print id) named
    rwa [print, print, printAt_map, printAt_map] at same
  outlined := by
    have same := congrArg (outlineAt id 0) named
    rw [outlineAt_map, outlineAt_map] at same
    exact congrArg (List.flatMap OutlineLine.render) same
  marked := by
    have same := congrArg (map fun _ => ()) named
    rwa [map_map, map_map] at same

end Node

namespace SymbolTable

/-! ## Results without a table -/

/-- With names for ids, what a program is read as is decided by its text. -/
theorem exists_parseForms_eq (text : Bytes) :
    Exists fun spelled : Except Fault (List (Node Bytes)) =>
      forall table : SymbolTable, table.ready = true ->
        Exists fun read => table.parseForms text = .ok read ∧
          read.outcome.map (List.map (Node.map read.table.nameOf)) = spelled := by
  cases fault : (Reader.readAll (.code false) (.ofText text)).fault with
  | some found =>
      refine ⟨.error found, fun table ready => ⟨_, parseForms_of_ready ready text, ?_⟩⟩
      rw [Batch.outcome, Batch.map, fault]
      rfl
  | none =>
      rcases Reader.parts_of_readAll fault with ⟨parts, ending, nonempty, items, scanned, ended⟩
      refine ⟨.ok (parts.map fun part => part.tree.map Reference.spelling), ?_⟩
      intro table ready
      refine ⟨_, parseForms_of_parts ready nonempty items scanned ended, ?_⟩
      exact congrArg Except.ok (map_nameOf_forms ready parts)

theorem parseDatum_of_ready {table : SymbolTable} (ready : table.ready = true) (text : Bytes) :
    let read := table.readItem .data (.ofText text)
    let after := read.cursor.skipBlank
    table.parseDatum text =
      .ok (match read.outcome with
        | .error _ => read
        | .ok _ =>
            if after.atEnd then { read with cursor := after }
            else { outcome := .error (.syntaxAt after.pos .trailingInput)
                   table := read.table
                   cursor := after }) := by
  intro read after
  rw [parseDatum, checkReady, if_pos ready]
  change (match read.outcome with
    | .error _ => Except.ok read
    | .ok _ => if after.atEnd then _ else _) = _
  cases read.outcome with
  | error fault => rfl
  | ok node => cases after.atEnd <;> rfl

/-- With names for ids, what an item is read as is decided by its text. -/
theorem exists_readItem_eq (slot : Slot) (cursor : Cursor) :
    Exists fun spelled : Except Fault (Node Bytes) =>
      forall table : SymbolTable, table.ready = true ->
        (table.readItem slot cursor).outcome.map
          (Node.map (table.readItem slot cursor).table.nameOf) = spelled := by
  cases outcome : (Reader.read slot cursor).outcome with
  | error fault =>
      refine ⟨.error fault, fun table ready => ?_⟩
      rw [readItem, outcome]
      rfl
  | ok tree =>
      rcases Reader.read_outcome_eq_ok outcome with ⟨_, tokens, scanned, item⟩
      refine ⟨.ok (tree.map Reference.spelling), fun table ready => ?_⟩
      rw [readItem_of_item scanned item]
      exact congrArg Except.ok (map_nameOf_resolve (holds_insertAll_names table tree)
        ((ready_insertAll table _).trans ready))

/-- With names for ids, what a datum is read as is decided by its text. -/
theorem exists_parseDatum_eq (text : Bytes) :
    Exists fun spelled : Except Fault (Node Bytes) =>
      forall table : SymbolTable, table.ready = true ->
        Exists fun read => table.parseDatum text = .ok read ∧
          read.outcome.map (Node.map read.table.nameOf) = spelled := by
  cases outcome : (Reader.read .data (.ofText text)).outcome with
  | error fault =>
      refine ⟨.error fault, fun table ready => ⟨_, parseDatum_of_ready ready text, ?_⟩⟩
      rw [readItem, outcome]
      rfl
  | ok tree =>
      rcases Reader.read_outcome_eq_ok outcome with ⟨_, tokens, scanned, item⟩
      generalize (Reader.read .data (.ofText text)).cursor = ending at scanned
      cases ended : ending.skipBlank.atEnd with
      | false =>
          refine ⟨.error (.syntaxAt ending.skipBlank.pos .trailingInput), ?_⟩
          intro table ready
          refine ⟨_, parseDatum_of_ready ready text, ?_⟩
          rw [readItem_of_item scanned item]
          simp only [ended]
          rfl
      | true =>
          refine ⟨.ok (tree.map Reference.spelling), ?_⟩
          intro table ready
          refine ⟨_, parseDatum_of_ready ready text, ?_⟩
          rw [readItem_of_item scanned item]
          simp only [ended]
          exact congrArg Except.ok (map_nameOf_resolve (holds_insertAll_names table tree)
            ((ready_insertAll table _).trans ready))

/-! ## Two tables -/

/-- Two attempts that come to the same after a change of their results failed in
the same way or succeeded together. -/
theorem outcomes_of_map_eq {Result Named : Type} {first second : Except Fault Result}
    {change other : Result -> Named} (same : first.map change = second.map other) :
    (Exists fun fault => first = .error fault ∧ second = .error fault) ∨
      Exists fun left => Exists fun right =>
        first = .ok left ∧ second = .ok right ∧ change left = other right := by
  cases first with
  | error fault =>
      cases second with
      | error other =>
          cases same
          exact .inl ⟨fault, rfl, rfl⟩
      | ok right => cases same
  | ok left =>
      cases second with
      | error fault => cases same
      | ok right => exact .inr ⟨left, right, rfl, rfl, Except.ok.inj same⟩

/-- Two readings, each into a table of its own, cannot be told apart.  They meet the same
fault, or they give as many trees, and these are alike one by one. -/
def AlikeReads {Result : Type} (items : Result -> List (Node SymbolId))
    (first second : Interned Result) : Prop :=
  (Exists fun fault => first.outcome = .error fault ∧ second.outcome = .error fault) ∨
    Exists fun result => Exists fun other =>
      first.outcome = .ok result ∧ second.outcome = .ok other ∧
        List.Forall₂ (Node.Alike first.table second.table) (items result) (items other)

section Alike

variable {left right : SymbolTable} (leftReady : left.ready = true)
  (rightReady : right.ready = true)

include leftReady rightReady

theorem readItem_alike (slot : Slot) (cursor : Cursor) :
    AlikeReads (fun node => [node]) (left.readItem slot cursor) (right.readItem slot cursor) := by
  rcases exists_readItem_eq slot cursor with ⟨spelled, decided⟩
  have same := (decided left leftReady).trans (decided right rightReady).symm
  rcases outcomes_of_map_eq same with failed | ⟨node, other, nodeRead, otherRead, named⟩
  · exact .inl failed
  · exact .inr ⟨node, other, nodeRead, otherRead, .cons (Node.alike_of_map_nameOf named) .nil⟩

theorem parseForms_alike (text : Bytes) :
    Exists fun first => Exists fun second =>
      left.parseForms text = .ok first ∧ right.parseForms text = .ok second ∧
        AlikeReads (fun forms => forms) first second := by
  rcases exists_parseForms_eq text with ⟨spelled, decided⟩
  rcases decided left leftReady with ⟨first, firstRead, firstNamed⟩
  rcases decided right rightReady with ⟨second, secondRead, secondNamed⟩
  refine ⟨first, second, firstRead, secondRead, ?_⟩
  rcases outcomes_of_map_eq (firstNamed.trans secondNamed.symm) with
    failed | ⟨forms, others, formsRead, othersRead, named⟩
  · exact .inl failed
  · refine .inr ⟨forms, others, formsRead, othersRead, ?_⟩
    rw [← List.forall₂_eq_eq_eq, List.forall₂_map_left_iff, List.forall₂_map_right_iff] at named
    exact named.imp fun _ _ => Node.alike_of_map_nameOf

theorem parseDatum_alike (text : Bytes) :
    Exists fun first => Exists fun second =>
      left.parseDatum text = .ok first ∧ right.parseDatum text = .ok second ∧
        AlikeReads (fun node => [node]) first second := by
  rcases exists_parseDatum_eq text with ⟨spelled, decided⟩
  rcases decided left leftReady with ⟨first, firstRead, firstNamed⟩
  rcases decided right rightReady with ⟨second, secondRead, secondNamed⟩
  refine ⟨first, second, firstRead, secondRead, ?_⟩
  rcases outcomes_of_map_eq (firstNamed.trans secondNamed.symm) with
    failed | ⟨datum, other, datumRead, otherRead, named⟩
  · exact .inl failed
  · exact .inr ⟨datum, other, datumRead, otherRead, .cons (Node.alike_of_map_nameOf named) .nil⟩

end Alike

end SymbolTable

end TailLisp

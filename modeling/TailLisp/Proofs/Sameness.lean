import TailLisp.Node.Copy
import TailLisp.Proofs.CodeAsData
import TailLisp.Proofs.NodePlaces
import TailLisp.Proofs.RoundTrip
import TailLisp.Proofs.TableIndependence

namespace TailLisp

/-!
Trees that say the same.

Three operations have to agree on what a tree says.  Comparing leaves out the
marks and nothing else, so sameness is equality of bare trees.  Copying keeps
everything, marks included.  Printing shows what comparing compares: trees that
are the same have the same text under any table.

The converse is not true of all trees, since a symbol may be given any name.
It is true of forms that were read.  The text of a legible tree can be scanned
and read in one way only, and what is read is the tree itself
(`Legible.eq_of_print_eq`), so forms that are printed alike are the same.  This
holds for all forms that one table has seen, whether they come from one text or
from several that were read one after the other.
-/

open Grammar

namespace Node

variable {Symbol : Type}

/-! ## Copies -/

theorem copySeries_eq (items : List (Node Symbol)) : copySeries items = items.map copy := by
  induction items with
  | nil => rfl
  | cons item items inductionHypothesis =>
      rw [copySeries, inductionHypothesis, List.map_cons]

theorem copyBindings_eq (bindings : List (Symbol × Node Symbol)) :
    copyBindings bindings = bindings.map fun binding => (binding.1, binding.2.copy) := by
  induction bindings with
  | nil => rfl
  | cons binding bindings inductionHypothesis =>
      rw [copyBindings, inductionHypothesis, List.map_cons]

/-- A copy is the tree itself, with all places and tail flags. -/
theorem copy_eq (node : Node Symbol) : node.copy = node := by
  have series (items : List (Node Symbol))
      (itemsSame : forall item, item ∈ items -> item.copy = item) : copySeries items = items := by
    rw [copySeries_eq]
    exact (List.map_congr_left itemsSame).trans (List.map_id' items)
  induction node with
  | pair mark car cdr carSame cdrSame =>
      rw [copy, carSame, cdrSame]
      rfl
  | list mark first others firstSame othersSame =>
      rw [copy, firstSame, series others othersSame]
      rfl
  | quote mark datum datumSame =>
      rw [copy, datumSame]
      rfl
  | begin mark body bodySame =>
      rw [copy, series body bodySame]
      rfl
  | define mark name value valueSame =>
      rw [copy, valueSame]
      rfl
  | conditional mark test consequent alternative testSame consequentSame alternativeSame =>
      rw [copy, testSame, consequentSame, alternativeSame]
      rfl
  | scope mark kind bindings body bindingsSame bodySame =>
      have copied : copyBindings bindings = bindings := by
        rw [copyBindings_eq]
        refine (List.map_congr_left fun binding member => ?_).trans (List.map_id' bindings)
        rw [bindingsSame binding member]
      rw [copy, copied, series body bodySame]
      rfl
  | lambda mark name params body bodySame =>
      rw [copy, series body bodySame]
      rfl
  | recur mark args argsSame =>
      rw [copy, series args argsSame]
      rfl
  | _ => rfl

/-! ## Texts of trees that are the same -/

/-- Trees that agree but for their marks have the same text. -/
theorem print_eq_of_bare_eq {left right : Node Symbol} (agree : left.bare = right.bare)
    (name : Symbol -> Bytes) : left.print name = right.print name := by
  have same := congrArg (print name) agree
  rwa [bare, bare, print_remark, print_remark] at same

end Node

/-- A legible tree is determined by its slot and its text. -/
theorem Legible.eq_of_print_eq {slot : Slot} {left right : Node Bytes}
    (leftLegible : Legible slot left) (rightLegible : Legible slot right)
    (alike : left.print id = right.print id) : left = right := by
  rcases leftLegible.spells .start [] Boundary.nil with ⟨tokens, scanned, tree, item, isLeft⟩
  rcases rightLegible.spells .start [] Boundary.nil with ⟨others, alsoScanned, other, also, isRight⟩
  rw [← alike] at alsoScanned
  -- The text has only one sequence of tokens, and that only one item.
  have sequence := scanned.tokens_eq.symm.trans alsoScanned.tokens_eq
  have same := item.unique also (congrArg Prod.fst sequence)
  rw [← isLeft, ← isRight, same.2]

namespace SymbolTable

/-! ## Forms that a table has seen -/

/-- The form was read from some text into the table as it is now or as it was
before it grew. -/
def HasRead (table : SymbolTable) (form : Node SymbolId) : Prop :=
  Exists fun before => Exists fun text => Exists fun result => Exists fun forms =>
    parseForms before text = .ok result ∧
    result.outcome = .ok forms ∧ form ∈ forms ∧ result.table.names <+: table.names

namespace HasRead

variable {table : SymbolTable} {form other : Node SymbolId}

theorem of_single {before : SymbolTable} {text : Bytes} {result : Interned (List (Node SymbolId))}
    (parsed : before.parseForms text = .ok result) (done : result.outcome = .ok [form])
    (grown : result.table.names <+: table.names) : table.HasRead form :=
  ⟨before, text, result, [form], parsed, done, List.mem_singleton.2 rfl, grown⟩

/-- The ids of the form belong to the table, and their names make a legible
tree. -/
theorem legible (read : table.HasRead form) :
    (forall id, id ∈ form.symbols -> id < table.size) ∧
      Legible (.code false) (form.map table.nameOf).unplaced := by
  rcases read with ⟨before, text, result, forms, parsed, done, member, grown⟩
  rcases item_of_parseForms parsed done member with ⟨ready, tokens, tree, item, found, held, same⟩
  have given : forall id, id ∈ form.symbols -> id < result.table.size := by
    rw [same]
    exact held.resolve_lt_size ready
  constructor
  · intro id occurs
    exact (given id occurs).trans_le grown.length_le
  · rw [map_nameOf_of_isPrefix grown given, same, map_nameOf_resolve held ready]
    exact item.legible found

/-- Forms with the same names at all places are the same at all places. -/
theorem unplaced_eq (read : table.HasRead form) (alsoRead : table.HasRead other)
    (named : (form.map table.nameOf).unplaced = (other.map table.nameOf).unplaced) :
    form.unplaced = other.unplaced := by
  have ids := congrArg (Node.map table.idOf) named
  rwa [Node.unplaced, Node.unplaced, ← Node.remark_map, ← Node.remark_map,
    map_idOf_nameOf read.legible.1, map_idOf_nameOf alsoRead.legible.1] at ids

/-- Forms with the same text are the same, and have the same tail flags. -/
theorem unplaced_eq_of_print_eq (read : table.HasRead form) (alsoRead : table.HasRead other)
    (alike : form.print table.nameOf = other.print table.nameOf) :
    form.unplaced = other.unplaced := by
  apply read.unplaced_eq alsoRead
  apply read.legible.2.eq_of_print_eq alsoRead.legible.2
  rw [Node.unplaced, Node.unplaced, Node.print_remark, Node.print_remark, Node.print_map_name,
    Node.print_map_name, alike]

end HasRead

/-- Comparing, copying and printing agree.  Trees are the same exactly if they
are equal but for their marks, which makes sameness an equivalence; a copy is
equal to its tree with all marks, and so has the same outline; trees that are
the same have the same text under every table; and forms that one table has
seen are the same if they have the same text there. -/
theorem same_copy_print_agree :
    (forall left right : Node SymbolId, left.same right = true ↔ left.bare = right.bare) ∧
    (forall node : Node SymbolId, node.same node = true) ∧
    (forall left right : Node SymbolId, left.same right = true -> right.same left = true) ∧
    (forall first second third : Node SymbolId,
      first.same second = true -> second.same third = true -> first.same third = true) ∧
    (forall node : Node SymbolId, node.copy = node ∧
      forall table : SymbolTable, node.copy.outline table.nameOf = node.outline table.nameOf) ∧
    (forall left right : Node SymbolId, left.same right = true ->
      forall table : SymbolTable, left.print table.nameOf = right.print table.nameOf) ∧
    (forall (table : SymbolTable) (left right : Node SymbolId),
      table.HasRead left -> table.HasRead right ->
        left.print table.nameOf = right.print table.nameOf -> left.same right = true) := by
  refine ⟨Node.same_iff_bare_eq, ?_, ?_, ?_, ?_, ?_, ?_⟩
  · intro node
    exact (Node.same_iff_bare_eq node node).2 rfl
  · intro left right same
    exact (Node.same_iff_bare_eq right left).2 ((Node.same_iff_bare_eq left right).1 same).symm
  · intro first second third same alsoSame
    rw [Node.same_iff_bare_eq] at same alsoSame ⊢
    exact same.trans alsoSame
  · intro node
    refine ⟨node.copy_eq, ?_⟩
    intro table
    rw [node.copy_eq]
  · intro left right same table
    exact Node.print_eq_of_bare_eq ((Node.same_iff_bare_eq left right).1 same) table.nameOf
  · intro table left right read alsoRead alike
    rw [Node.same_iff_bare_eq]
    exact Node.bare_eq_of_unplaced_eq (read.unplaced_eq_of_print_eq alsoRead alike)

/-- A tick and the form for which it stands, read one after the other into one
table.  The nodes have other places and the same text. -/
theorem same_copy_print_agree_ticked :
    Exists fun first => Exists fun second => Exists fun left => Exists fun right =>
      empty.prepare.parseForms (Bytes.ofText "(f 'x)") = .ok first ∧
      first.table.parseForms (Bytes.ofText "(f (quote x))") = .ok second ∧
      first.outcome = .ok [left] ∧ second.outcome = .ok [right] ∧
      left.print second.table.nameOf = Bytes.ofText "(f (quote x))" ∧
      right.print second.table.nameOf = Bytes.ofText "(f (quote x))" ∧
      left.preorder.map Node.pos ≠ right.preorder.map Node.pos ∧
      left.same right = true := by
  have head : Item (.code false) [⟨⟨1, 1, 1⟩, .symbol (Bytes.ofText "f")⟩] _ := .atom rfl
  have ticked : Item (.code false)
      [⟨⟨1, 3, 3⟩, .tick⟩, ⟨⟨1, 4, 4⟩, .symbol (Bytes.ofText "x")⟩] _ :=
    .ticked (.atom rfl)
  have quoted := @Item.quote false ⟨1, 3, 3⟩ ⟨1, 4, 4⟩ [⟨⟨1, 10, 10⟩, .symbol (Bytes.ofText "x")⟩]
    _ ⟨1, 11, 11⟩ (.atom rfl)
  have call := @Item.list (.code false) .start ⟨1, 5, 5⟩ ⟨_, _⟩ [⟨_, _⟩] rfl
    (List.forall_mem_cons.2 ⟨head, List.forall_mem_singleton.2 ticked⟩)
  have other := @Item.list (.code false) .start ⟨1, 12, 12⟩ ⟨_, _⟩ [⟨_, _⟩] rfl
    (List.forall_mem_cons.2 ⟨head, List.forall_mem_singleton.2 quoted⟩)
  have scanned : (Cursor.ofText (Bytes.ofText "(f 'x)")).Scans _ ⟨⟨1, 6, 6⟩, []⟩ :=
    .cons rfl (.cons rfl (.cons rfl (.cons rfl (.cons rfl (.nil _)))))
  have alsoScanned : (Cursor.ofText (Bytes.ofText "(f (quote x))")).Scans _ ⟨⟨1, 13, 13⟩, []⟩ :=
    .cons rfl (.cons rfl (.cons rfl (.cons rfl (.cons rfl (.cons rfl (.cons rfl (.nil _)))))))
  have parsed := parseForms_of_item (ready_prepare empty) call scanned rfl
  have alsoParsed (names : List Bytes) :=
    parseForms_of_item ((ready_insertAll _ names).trans (ready_prepare empty)) other alsoScanned rfl
  rcases same_copy_print_agree with ⟨_, _, _, _, _, _, compared⟩
  refine ⟨_, _, _, _, parsed, alsoParsed _, rfl, rfl, ?_, ?_, ?_, ?_⟩
  · decide +kernel
  · decide +kernel
  · decide +kernel
  · refine compared _ _ _ (.of_single parsed rfl ?_)
      (.of_single (alsoParsed _) rfl List.prefix_rfl) ?_
    · decide +kernel
    · decide +kernel

end SymbolTable

end TailLisp

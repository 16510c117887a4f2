import TailLisp.Proofs.Acceptance

namespace TailLisp

/-!
Tail slots.

Which places of a tree are tail slots is said here of finished trees alone,
from the root down and without the reader.  A tree passes its own slot on to
the last expression of a `begin` and to the branches of a conditional; scopes
and lambdas begin a tail slot at the end of their bodies wherever they stand;
all other parts are outside.

The reader sets its flags the other way round, from what it has read and
taking back what it guessed.  Since the trees that it returns are those of the
grammar, whose rules hand the slots down, the flags are exact: a node is
flagged if and only if it is in a tail slot and of a kind that has a use for
the flag.
-/

open Grammar

namespace Node

variable {Symbol Target : Type}

/-- Whether nodes of this kind are flagged in a tail slot. -/
def takesTail : Node Symbol -> Bool
  | list _ _ _ => true
  | begin _ _ => true
  | conditional _ _ _ _ => true
  | scope _ _ _ _ => true
  | recur _ _ => true
  | _ => false

def isRecur : Node Symbol -> Bool
  | recur _ _ => true
  | _ => false

/-- The expressions of a body with their slots.  The last one has the slot in
which the body ends. -/
def bodySlots (tail : Bool) : List (Node Symbol) -> List (Bool × Node Symbol)
  | [] => []
  | [last] => [(tail, last)]
  | item :: next :: items => (false, item) :: bodySlots tail (next :: items)

/-- The parts of a tree in a slot, each with its own slot; the flag tells
whether the slot is a tail slot. -/
def parts (tail : Bool) : Node Symbol -> List (Bool × Node Symbol)
  | pair _ car cdr => [(false, car), (false, cdr)]
  | list _ first others => (first :: others).map (Prod.mk false)
  | quote _ datum => [(false, datum)]
  | begin _ body => bodySlots tail body
  | define _ _ value => [(false, value)]
  | conditional _ test consequent alternative =>
      [(false, test), (tail, consequent), (tail, alternative)]
  | scope _ _ bindings body =>
      bindings.map (fun binding => (false, binding.2)) ++ bodySlots true body
  | lambda _ _ _ body => bodySlots true body
  | recur _ args => args.map (Prod.mk false)
  | _ => []

/-- A node stands somewhere in a tree: `Stands tail root inTail node` says that
a root in a slot has the node inside it, in a slot of its own. -/
inductive Stands : Bool -> Node Symbol -> Bool -> Node Symbol -> Prop
  | root {tail root} : Stands tail root tail root
  | within {tail root slot part inTail node} :
      (slot, part) ∈ root.parts tail ->
      Stands slot part inTail node ->
      Stands tail root inTail node

/-- A node in a slot is flagged as it should be, and is no `recur` outside a
tail slot. -/
structure Flagged (inTail : Bool) (node : Node Symbol) : Prop where
  exact : node.mark.tail = (inTail && node.takesTail)
  recur : node.isRecur = true -> inTail = true

theorem Flagged.tail_iff {inTail : Bool} {node : Node Symbol} (flagged : Flagged inTail node) :
    (node.mark.tail = true ↔ node.takesTail = true ∧ inTail = true) ∧
      (node.isRecur = true -> inTail = true ∧ node.mark.tail = true) := by
  constructor
  · rw [flagged.exact, Bool.and_eq_true, and_comm]
  · intro isRecur
    have inSlot := flagged.recur isRecur
    refine ⟨inSlot, ?_⟩
    cases node with
    | recur mark args =>
        rw [flagged.exact, inSlot]
        rfl
    | _ => cases isRecur

/-- Every node of a tree in a slot is flagged as it should be. -/
def AllFlagged (tail : Bool) (root : Node Symbol) : Prop :=
  forall inTail node, Stands tail root inTail node -> Flagged inTail node

/-- It is enough to look at the root and, in turn, at its parts. -/
theorem AllFlagged.of_parts {tail : Bool} {root : Node Symbol} (atRoot : Flagged tail root)
    (inParts : forall slot part, (slot, part) ∈ root.parts tail -> AllFlagged slot part) :
    AllFlagged tail root := by
  intro inTail node stands
  cases stands with
  | root => exact atRoot
  | within member inside => exact inParts _ _ member _ _ inside

theorem bodySlots_concat (tail : Bool) (init : List (Node Symbol)) (last : Node Symbol) :
    bodySlots tail (init ++ [last]) = init.map (Prod.mk false) ++ [(tail, last)] := by
  induction init with
  | nil => rfl
  | cons first init inductionHypothesis =>
      have unfolded : bodySlots tail (first :: init ++ [last]) =
          (false, first) :: bodySlots tail (init ++ [last]) := by
        cases init <;> rfl
      rw [unfolded, inductionHypothesis]
      rfl

theorem mem_bodySlots_of_init {tail : Bool} {init : List (Node Symbol)} {item last : Node Symbol}
    (member : item ∈ init) : (false, item) ∈ bodySlots tail (init ++ [last]) := by
  rw [bodySlots_concat]
  exact List.mem_append_left _ (List.mem_map_of_mem member)

theorem last_mem_bodySlots {tail : Bool} {init : List (Node Symbol)} {last : Node Symbol} :
    (tail, last) ∈ bodySlots tail (init ++ [last]) := by
  rw [bodySlots_concat]
  exact List.mem_append_right _ (List.mem_singleton.2 rfl)

/-- The expressions of a body are flagged if all but the last are outside. -/
theorem AllFlagged.of_body {tail : Bool} {init : List (Node Symbol)} {last : Node Symbol}
    (inInit : forall item, item ∈ init -> AllFlagged false item) (inLast : AllFlagged tail last)
    {slot : Bool} {part : Node Symbol} (member : (slot, part) ∈ bodySlots tail (init ++ [last])) :
    AllFlagged slot part := by
  rw [bodySlots_concat] at member
  rcases List.mem_append.1 member with member | member
  · rcases List.mem_map.1 member with ⟨item, member, same⟩
    cases same
    exact inInit _ member
  · cases List.mem_singleton.1 member
    exact inLast

theorem AllFlagged.of_series {items : List (Node Symbol)}
    (inItems : forall item, item ∈ items -> AllFlagged false item)
    {slot : Bool} {part : Node Symbol} (member : (slot, part) ∈ items.map (Prod.mk false)) :
    AllFlagged slot part := by
  rcases List.mem_map.1 member with ⟨item, member, same⟩
  cases same
  exact inItems _ member

theorem AllFlagged.pair {tail : Bool} {pos : Position} {car cdr : Node Symbol}
    (inCar : AllFlagged false car) (inCdr : AllFlagged false cdr) :
    AllFlagged tail (pair (.plain pos) car cdr) := by
  refine of_parts ⟨(Bool.and_false tail).symm, nofun⟩ ?_
  intro slot part member
  refine @of_series _ [car, cdr] ?_ _ _ member
  exact List.forall_mem_cons.2 ⟨inCar, List.forall_mem_singleton.2 inCdr⟩

theorem AllFlagged.chain {items : List (Node Symbol)} {ending : Node Symbol}
    (inEnding : AllFlagged false ending)
    (inItems : forall item, item ∈ items -> AllFlagged false item) :
    AllFlagged false (chain ending items) := by
  induction items with
  | nil => exact inEnding
  | cons item items inductionHypothesis =>
      apply AllFlagged.pair (inItems item (by simp))
      apply inductionHypothesis
      intro later member
      exact inItems later (List.mem_cons_of_mem _ member)

/-! ## Replacing symbols -/

theorem mark_map (replace : Symbol -> Target) (node : Node Symbol) :
    (node.map replace).mark = node.mark := by
  cases node <;> rfl

theorem map_chain (replace : Symbol -> Target) (ending : Node Symbol)
    (items : List (Node Symbol)) :
    (chain ending items).map replace =
      chain (ending.map replace) (items.map (Node.map replace)) := by
  induction items with
  | nil => rfl
  | cons item items inductionHypothesis =>
      rw [List.map_cons, chain, chain, map, inductionHypothesis, pos, pos, mark_map]

theorem bodySlots_map (replace : Symbol -> Target) (tail : Bool) (body : List (Node Symbol)) :
    bodySlots tail (body.map (Node.map replace)) =
      (bodySlots tail body).map fun part => (part.1, part.2.map replace) := by
  rcases List.eq_nil_or_concat' body with nothing | ⟨init, last, same⟩
  · rw [nothing]
    rfl
  · rw [same, List.map_append, List.map_singleton, bodySlots_concat, bodySlots_concat]
    simp

/-- Replacing symbols leaves every slot where it was. -/
theorem parts_map (replace : Symbol -> Target) (tail : Bool) (node : Node Symbol) :
    (node.map replace).parts tail =
      (node.parts tail).map fun part => (part.1, part.2.map replace) := by
  cases node <;> simp [map, parts, bodySlots_map]

theorem Stands.map (replace : Symbol -> Target) {tail inTail : Bool} {root node : Node Symbol}
    (stands : Stands tail root inTail node) :
    Stands tail (root.map replace) inTail (node.map replace) := by
  induction stands with
  | root => exact .root
  | within member _ inductionHypothesis =>
      refine .within ?_ inductionHypothesis
      rw [parts_map]
      exact List.mem_map_of_mem member

theorem Stands.of_map {replace : Symbol -> Target} {tail inTail : Bool} {root : Node Symbol}
    {node : Node Target} (stands : Stands tail (root.map replace) inTail node) :
    Exists fun origin => Stands tail root inTail origin ∧ node = origin.map replace := by
  generalize replaced : root.map replace = target at stands
  induction stands generalizing root with
  | root => exact ⟨root, .root, replaced.symm⟩
  | within member _ inductionHypothesis =>
      rw [← replaced, parts_map] at member
      rcases List.mem_map.1 member with ⟨⟨slot, part⟩, member, same⟩
      rcases Prod.mk.inj same with ⟨sameSlot, samePart⟩
      rcases inductionHypothesis samePart with ⟨origin, inside, same⟩
      exact ⟨origin, .within (sameSlot ▸ member) inside, same⟩

theorem AllFlagged.map {replace : Symbol -> Target} {tail : Bool} {root : Node Symbol}
    (flagged : AllFlagged tail root) : AllFlagged tail (root.map replace) := by
  intro inTail node stands
  rcases stands.of_map with ⟨origin, inside, same⟩
  have atOrigin := flagged inTail origin inside
  rw [same]
  constructor
  · rw [mark_map, atOrigin.exact]
    cases origin <;> rfl
  · intro isRecur
    apply atOrigin.recur
    cases origin <;> exact isRecur

end Node

/-! ## Trees of the grammar -/

theorem Slot.isTail_element (slot : Slot) : slot.element.isTail = false := by
  cases slot <;> rfl

/-- An atom is never flagged. -/
theorem Token.allFlagged_of_atom {token : Token} {tree : Tree} (atom : token.atom? = some tree)
    (tail : Bool) : tree.AllFlagged tail := by
  unfold atom? at atom
  split at atom
  case h_3 =>
      rcases Option.map_eq_some_iff.1 atom with ⟨contents, _, same⟩
      rw [← same]
      exact .of_parts ⟨(Bool.and_false tail).symm, nofun⟩ nofun
  all_goals cases atom
  all_goals exact .of_parts ⟨(Bool.and_false tail).symm, nofun⟩ nofun

namespace Grammar.Item

open Node

/-- In the tree of an item every node is flagged as its slot demands. -/
theorem allFlagged {slot : Slot} {tokens : List Token} {tree : Tree}
    (item : Item slot tokens tree) : AllFlagged slot.isTail tree := by
  -- By induction on the derivation: each rule gives its parts the slots of `parts`.
  induction item with
  | atom atom => exact Token.allFlagged_of_atom atom _
  | @ticked slot pos tokens datum _ inDatum =>
      cases slot with
      | data =>
          refine AllFlagged.of_parts ⟨rfl, nofun⟩ ?_
          intro slot part member
          apply AllFlagged.of_series _ member
          have word : AllFlagged false (symbol (.plain pos) (Reference.reserved .quote)) :=
            .of_parts ⟨rfl, nofun⟩ nofun
          exact List.forall_mem_cons.2 ⟨word, List.forall_mem_singleton.2 inDatum⟩
      | code tail =>
          refine AllFlagged.of_parts ⟨(Bool.and_false tail).symm, nofun⟩ ?_
          intro slot part member
          cases List.mem_singleton.1 member
          exact inDatum
  | empty => exact .of_parts ⟨(Bool.and_false _).symm, nofun⟩ nofun
  | @list slot pos ending first others admitted _ inParts =>
      rw [Slot.isTail_element] at inParts
      refine AllFlagged.of_parts ⟨(Bool.and_true _).symm, nofun⟩ ?_
      intro slot part member
      exact AllFlagged.of_series (List.forall_mem_map.2 inParts) member
  | dotted _ _ _ inParts inLast =>
      rw [Slot.isTail_element] at inLast
      simp only [Slot.isTail_element] at inParts
      rcases List.forall_mem_cons.1 inParts with ⟨inFirst, inOthers⟩
      exact .pair inFirst (.chain inLast (List.forall_mem_map.2 inOthers))
  | @quote tail pos word tokens datum ending _ inDatum =>
      refine AllFlagged.of_parts ⟨(Bool.and_false tail).symm, nofun⟩ ?_
      intro slot part member
      cases List.mem_singleton.1 member
      exact inDatum
  | @emptyBegin tail pos word ending => exact .of_parts ⟨(Bool.and_true tail).symm, nofun⟩ nofun
  | @begin tail pos word tokens last ending init _ _ inInit inLast =>
      refine AllFlagged.of_parts ⟨(Bool.and_true tail).symm, nofun⟩ ?_
      intro slot part member
      exact AllFlagged.of_body (List.forall_mem_map.2 inInit) inLast member
  | @define tail pos word name tokens value ending label _ _ inValue =>
      refine AllFlagged.of_parts ⟨(Bool.and_false tail).symm, nofun⟩ ?_
      intro slot part member
      cases List.mem_singleton.1 member
      exact inValue
  | @conditional tail _ _ _ _ _ _ _ _ _ _ _ _ inTest inConsequent inAlternative =>
      refine AllFlagged.of_parts ⟨(Bool.and_true tail).symm, nofun⟩ ?_
      intro slot part member
      simp only [parts, List.mem_cons, List.not_mem_nil, or_false, Prod.mk.injEq] at member
      rcases member with ⟨sameSlot, same⟩ | ⟨sameSlot, same⟩ | ⟨sameSlot, same⟩
      · rw [sameSlot, same]
        exact inTest
      · rw [sameSlot, same]
        exact inConsequent
      · rw [sameSlot, same]
        exact inAlternative
  | @scope tail _ _ _ _ _ _ _ _ bindings init _ _ _ inBindings inInit inLast =>
      refine AllFlagged.of_parts ⟨(Bool.and_true tail).symm, nofun⟩ ?_
      intro slot part member
      rcases List.mem_append.1 member with member | member
      · rw [List.map_map] at member
        rcases List.mem_map.1 member with ⟨binding, bound, same⟩
        cases same
        exact inBindings binding bound
      · exact AllFlagged.of_body (List.forall_mem_map.2 inInit) inLast member
  | @lambda tail _ _ _ _ _ _ _ _ _ params init _ _ _ _ inInit inLast =>
      refine AllFlagged.of_parts ⟨(Bool.and_false tail).symm, nofun⟩ ?_
      intro slot part member
      exact AllFlagged.of_body (List.forall_mem_map.2 inInit) inLast member
  | recur _ inArgs =>
      apply AllFlagged.of_parts ⟨rfl, fun _ => rfl⟩
      intro slot part member
      exact AllFlagged.of_series (List.forall_mem_map.2 inArgs) member

end Grammar.Item

/-! ## Trees that were read -/

namespace SymbolTable

open Node

/-- Tail flags are exact, in programs and in single items.  A node is flagged
exactly if it is of a kind that takes the flag and stands in a tail slot, and a
`recur` stands nowhere else. -/
theorem tail_flags_exact (table : SymbolTable) :
    (forall text result forms form, table.parseForms text = .ok result ->
      result.outcome = .ok forms -> form ∈ forms ->
        forall inTail node, Stands false form inTail node ->
          (node.mark.tail = true ↔ node.takesTail = true ∧ inTail = true) ∧
            (node.isRecur = true -> inTail = true ∧ node.mark.tail = true)) ∧
    (forall cursor form, (table.readItem (.code false) cursor).outcome = .ok form ->
      forall inTail node, Stands false form inTail node ->
        (node.mark.tail = true ↔ node.takesTail = true ∧ inTail = true) ∧
          (node.isRecur = true -> inTail = true ∧ node.mark.tail = true)) := by
  constructor
  · intro text result forms form parsed done member inTail node stands
    rcases item_of_parseForms parsed done member with ⟨_, tokens, tree, item, _, _, same⟩
    rw [same] at stands
    exact (item.allFlagged.map inTail node stands).tail_iff
  · intro cursor form done inTail node stands
    rcases item_of_readItem done with ⟨tokens, tree, _, item, _, same⟩
    rw [same] at stands
    exact (item.allFlagged.map inTail node stands).tail_iff

/-- A loop whose body is a `recur`: the loop is outside, the `recur` in a tail
slot. -/
theorem tail_flags_exact_loop :
    Exists fun result => Exists fun form => Exists fun again =>
      empty.prepare.parseForms (Bytes.ofText "(loop () (recur))") = .ok result ∧
      result.outcome = .ok [form] ∧ form.mark.tail = false ∧
        Stands false form true again ∧ again.isRecur = true ∧ again.mark.tail = true := by
  have scanned : (Cursor.ofText (Bytes.ofText "(loop () (recur))")).Scans _ ⟨⟨1, 17, 17⟩, []⟩ :=
    .cons rfl (.cons rfl (.cons rfl (.cons rfl (.cons rfl (.cons rfl (.cons rfl (.cons rfl
      (.nil _))))))))
  have again : Item (.code true) _ _ :=
    @Item.recur ⟨1, 9, 9⟩ ⟨1, 10, 10⟩ ⟨1, 15, 15⟩ [] nofun
  have loop : Item (.code false) _ _ :=
    @Item.scope false ⟨1, 0, 0⟩ ⟨1, 1, 1⟩ .loop ⟨1, 6, 6⟩ ⟨1, 7, 7⟩ _ _ ⟨1, 16, 16⟩ [] [] nofun
      nofun again
  have single : forall part, part ∈ [Passage.mk _ _] -> Item (.code false) part.tokens part.tree :=
    fun part member => List.mem_singleton.1 member ▸ loop
  have ready : empty.prepare.ready = true := rfl
  have parsed := parseForms_of_parts ready (List.cons_ne_nil _ _) single scanned rfl
  have flags := (tail_flags_exact empty.prepare).1 _ _ _ _ parsed rfl (List.mem_singleton.2 rfl)
  have stands : Stands false (scope ⟨⟨1, 0, 0⟩, false⟩ .loop [] [recur ⟨⟨1, 9, 9⟩, true⟩ []]) true
      (recur (⟨⟨1, 9, 9⟩, true⟩ : Mark) ([] : List (Node SymbolId))) :=
    .within (List.mem_singleton.2 rfl) .root
  refine ⟨_, _, _, parsed, rfl, ?_, stands, rfl, ((flags _ _ stands).2 rfl).2⟩
  exact Bool.eq_false_iff.2 fun flagged => nomatch ((flags _ _ .root).1.1 flagged).2

end SymbolTable

end TailLisp

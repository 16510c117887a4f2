import TailLisp.Proofs.Demotion
import TailLisp.Proofs.Descent

namespace TailLisp

/-!
What the descent comes to.

A part of the descent is compared with the state in which the reader stands when
the part is called.  Either both fail: then the part returns nothing and has set
the fault that the reader names.  Or the part returns something and has left the
fault alone; then the reader has come to a later state, which is decided by what
the part was to read.  In both cases they have stopped at the same place, and the
session's table has received the names that the reader lists.

The comparison is closed under sequencing, so each function of the descent is taken
apart along its own text.  Agreement says that the part comes to an end, and a part
that has used up its rounds or its depth does not.  What keeps them from being used up
is that less of the text is left behind every token, and for this `LeadsTo` compares
the lengths.
-/

/-! ## Values in a growing table -/

theorem Node.map_withMark {Symbol Target : Type} (replace : Symbol -> Target) (mark : Mark)
    (node : Node Symbol) : (node.withMark mark).map replace = (node.map replace).withMark mark := by
  cases node <;> rfl

namespace SymbolTable

/-- The later table has all names of the table, with the same ids. -/
structure GrowsTo (table later : SymbolTable) : Prop where
  names : table.names <+: later.names
  ready : later.ready = table.ready

theorem GrowsTo.refl (table : SymbolTable) : table.GrowsTo table :=
  ⟨List.prefix_rfl, rfl⟩

theorem GrowsTo.trans {first second third : SymbolTable} (grows : first.GrowsTo second)
    (further : second.GrowsTo third) : first.GrowsTo third :=
  ⟨grows.names.trans further.names, further.ready.trans grows.ready⟩

theorem growsTo_insert (table : SymbolTable) (name : Bytes) : table.GrowsTo (table.insert name) :=
  ⟨names_isPrefix_insert table name, ready_insert table name⟩

theorem growsTo_insertAll (table : SymbolTable) (names : List Bytes) :
    table.GrowsTo (table.insertAll names) :=
  ⟨names_isPrefix_insertAll table names, ready_insertAll table names⟩

/-- The value is what something means in the table, and it stays so while the table
grows. -/
def Fixes {Value : Type} (table : SymbolTable) (value : Value) (meaning : SymbolTable -> Value) :
    Prop :=
  forall later, table.GrowsTo later -> value = meaning later

theorem Fixes.later {Value : Type} {table later : SymbolTable} {value : Value}
    {meaning : SymbolTable -> Value} (fixed : table.Fixes value meaning)
    (grows : table.GrowsTo later) : later.Fixes value meaning :=
  fun latest further => fixed latest (grows.trans further)

/-- The tree with the ids of a table. -/
def nodeOf (tree : Tree) (table : SymbolTable) : Node SymbolId :=
  tree.map table.resolve

def nodesOf (trees : List Tree) (table : SymbolTable) : List (Node SymbolId) :=
  trees.map (Node.map table.resolve)

def bindingsOf (bindings : List (Reference × Tree)) (table : SymbolTable) :
    List (SymbolId × Node SymbolId) :=
  bindings.map fun binding => (table.resolve binding.1, binding.2.map table.resolve)

def idsOf (names : List Bytes) (table : SymbolTable) : List SymbolId :=
  names.map table.idOf

section Fixes

variable {table : SymbolTable} {nodes : List (Node SymbolId)} {trees : List Tree}

theorem Fixes.concat {node : Node SymbolId} {tree : Tree}
    (fixed : table.Fixes nodes (nodesOf trees)) (last : table.Fixes node (nodeOf tree)) :
    table.Fixes (nodes ++ [node]) (nodesOf (trees ++ [tree])) := by
  intro later grows
  rw [fixed later grows, last later grows, nodesOf, nodesOf, List.map_append]
  rfl

theorem Fixes.concat_binding {bindings : List (SymbolId × Node SymbolId)}
    {pairs : List (Reference × Tree)} {id : SymbolId} {node : Node SymbolId} {name : Bytes}
    {tree : Tree} (fixed : table.Fixes bindings (bindingsOf pairs))
    (fixedId : table.Fixes id fun later => later.idOf name)
    (last : table.Fixes node (nodeOf tree)) :
    table.Fixes (bindings ++ [(id, node)]) (bindingsOf (pairs ++ [(.named name, tree)])) := by
  intro later grows
  rw [fixed later grows, fixedId later grows, last later grows, bindingsOf, bindingsOf,
    List.map_append]
  rfl

theorem Fixes.concat_id {ids : List SymbolId} {names : List Bytes} {id : SymbolId} {name : Bytes}
    (fixed : table.Fixes ids (idsOf names)) (last : table.Fixes id fun later => later.idOf name) :
    table.Fixes (ids ++ [id]) (idsOf (names ++ [name])) := by
  intro later grows
  rw [fixed later grows, last later grows, idsOf, idsOf, List.map_append]
  rfl

theorem Fixes.ofList (fixed : table.Fixes nodes (nodesOf trees)) (pos : Position) :
    table.Fixes (.ofList (.plain pos) nodes) (nodeOf (.ofList (.plain pos) trees)) := by
  intro later grows
  rw [fixed later grows, nodesOf, nodeOf]
  cases trees with
  | nil => rfl
  | cons first others =>
      rw [Node.ofList, Node.map, Node.mapSeries_eq]
      rfl

theorem Fixes.chain (fixed : table.Fixes nodes (nodesOf trees)) {ending : Node SymbolId}
    {last : Tree} (fixedLast : table.Fixes ending (nodeOf last)) (pos : Position) :
    table.Fixes ((Node.chain ending nodes).withMark (.plain pos))
      (nodeOf ((Node.chain last trees).withMark (.plain pos))) := by
  intro later grows
  rw [fixed later grows, fixedLast later grows, nodesOf, nodeOf, nodeOf, Node.map_withMark,
    Node.map_chain]

end Fixes

/-- A name that has arrived keeps its id. -/
theorem fixes_idOf (table : SymbolTable) (name : Bytes) :
    (table.insert name).Fixes (table.idOf name) fun later => later.idOf name := by
  intro later grows
  dsimp only
  rw [idOf_of_isPrefix grows.names (mem_insert.2 (.inr rfl)), idOf_insert_self]

/-- The id that a table has at hand stays the same, also in a table that was never
prepared. -/
theorem fixes_reservedId (table : SymbolTable) (form : SpecialForm) :
    table.Fixes (table.reservedId form) fun later => later.reservedId form := by
  intro later grows
  dsimp only
  rw [reservedId, reservedId, grows.ready]
  split
  · next ready => exact (idOf_of_isPrefix grows.names (table.reserved ready form)).symm
  · rfl

theorem idOf_injective_of_held {table : SymbolTable} {name other : Bytes}
    (held : name ∈ table.names) (same : table.idOf name = table.idOf other) : name = other := by
  have otherHeld : other ∈ table.names := by
    rw [← idOf_lt_size, ← same]
    exact idOf_lt_size.2 held
  rw [← nameOf_idOf held, same, nameOf_idOf otherHeld]

/-- Ids tell names apart as long as one of them has arrived. -/
theorem mem_ids_iff {table : SymbolTable} {ids : List SymbolId} {names : List Bytes} {name : Bytes}
    (fixed : table.Fixes ids (idsOf names)) (held : name ∈ table.names) :
    table.idOf name ∈ ids ↔ name ∈ names := by
  rw [fixed table (.refl table), idsOf, List.mem_map]
  constructor
  · rintro ⟨other, member, same⟩
    rwa [idOf_injective_of_held held same.symm]
  · intro member
    exact ⟨name, member, rfl⟩

end SymbolTable

namespace Session

/-- Where a session can be after a part of the descent. -/
structure LeadsTo (session later : Session) : Prop where
  grows : session.table.GrowsTo later.table
  shorter : later.cursor.rest.length <= session.cursor.rest.length

end Session

/-! ## Where the reader goes on -/

namespace Reader

/-- Goes on behind a step, if the step was taken. -/
def proceed (step : Except Fault Step) (around : List Hole) (cursor : Cursor) : Reading :=
  match step with
  | .error fault => { outcome := .error fault, names := [], cursor }
  | .ok step => ((step.action.apply around).resume cursor).prepend step.interned.toList

/-- Goes on with a tree that fills the innermost hole. -/
def continueWith (around : List Hole) (tree : Tree) (cursor : Cursor) : Reading :=
  ((Filled.complete tree).settle around).resume cursor

theorem proceed_wait (state : State) (around : List Hole) (cursor : Cursor) :
    proceed (.ok (.wait state)) around cursor = resume state around cursor := by
  cases around <;> rfl

theorem proceed_waiting (state : State) (name : Bytes) (around : List Hole) (cursor : Cursor) :
    proceed (.ok { action := .settle (.waiting state), interned := some name }) around cursor =
      (resume state around cursor).prepend [name] := by
  cases around <;> rfl

theorem proceed_complete (tree : Tree) (around : List Hole) (cursor : Cursor) :
    proceed (.ok (.complete tree)) around cursor = continueWith around tree cursor := by
  cases around <;> rfl

theorem continueWith_of_waiting {hole : Hole} {tree : Tree} {state : State}
    (fills : hole.fill tree = .waiting state) (around : List Hole) (cursor : Cursor) :
    continueWith (hole :: around) tree cursor = resume state around cursor := by
  rw [continueWith, Filled.settle, fills, Filled.settle_waiting]
  rfl

end Reader

/-! ## Agreement -/

/-- Looking for a token never moves back. -/
theorem Cursor.length_next_le (cursor : Cursor) :
    cursor.next.2.rest.length <= cursor.rest.length := by
  have skipped := cursor.length_skipBlank_le
  rw [next_eq_scanHere, scanHere]
  dsimp only
  split
  · exact skipped
  · next first text begun =>
      have taken := Lexing.length_rest_ofText first text
      rw [begun, List.length_cons] at skipped
      split <;> (dsimp only [move]; omega)

namespace Descent

open Reader (proceed continueWith)
open SymbolTable (nodeOf)

variable {Result Other Piece Whole : Type}

/-- The part comes to what the reader comes to.  What the reader does behind the
piece that the part reads is decided by the piece and the place behind it. -/
inductive Agrees (part : Descent Result) (session : Session)
    (meaning : Piece -> SymbolTable -> Result) (reading : Reading)
    (goOn : Piece -> Cursor -> Reading) : Prop
  /-- The fault is set, and nothing is returned. -/
  | failed {fault names cursor} :
      part.run session =
        some (none, { session.advance names cursor with fault := some fault }) ->
      reading = { outcome := .error fault, names, cursor } ->
      Agrees part session meaning reading goOn
  /-- Something is returned, and the fault is left alone. -/
  | returned {result piece names cursor} :
      part.run session = some (some result, session.advance names cursor) ->
      cursor.rest.length <= session.cursor.rest.length ->
      (session.advance names cursor).table.Fixes result (meaning piece) ->
      reading = (goOn piece cursor).prepend names ->
      Agrees part session meaning reading goOn

namespace Agrees

variable {part : Descent Result} {session : Session} {meaning : Piece -> SymbolTable -> Result}
  {reading : Reading} {goOn : Piece -> Cursor -> Reading}
  {whole : Whole -> SymbolTable -> Other} {later : Whole -> Cursor -> Reading}

theorem of_fail (pos : Position) (error : SyntaxError) :
    (fail pos error : Descent Result).Agrees session meaning
      { outcome := .error (.syntaxAt pos error), names := [], cursor := session.cursor } goOn :=
  .failed rfl rfl

theorem of_pure {result : Result} (piece : Piece)
    (fixed : session.table.Fixes result (meaning piece))
    (same : reading = goOn piece session.cursor) :
    (pure result : Descent Result).Agrees session meaning reading goOn := by
  have ran : (pure result : Descent Result).run session =
      some (some result, session.advance [] session.cursor) :=
    rfl
  exact .returned ran (Nat.le_refl _) fixed same

/-- A part that comes to where another part begins goes on as that part does. -/
theorem behind {part use : Descent Other} (names : List Bytes) {cursor : Cursor}
    {reading : Reading} (ran : part.run session = use.run (session.advance names cursor))
    (shorter : cursor.rest.length <= session.cursor.rest.length)
    (next : use.Agrees (session.advance names cursor) whole reading later) :
    part.Agrees session whole (reading.prepend names) later := by
  cases next with
  | @failed fault others ending stops stopped =>
      rw [Session.advance_advance] at stops
      exact .failed (ran.trans stops) (congrArg (Reading.prepend names) stopped)
  | @returned outcome found others ending goes left settled went =>
      rw [Session.advance_advance] at goes settled
      refine .returned (ran.trans goes) (left.trans shorter) settled ?_
      exact (congrArg (Reading.prepend names) went).trans (Reading.prepend_prepend names others _)

theorem of_run_eq {part use : Descent Other} {reading : Reading}
    (ran : part.run session = use.run session) (next : use.Agrees session whole reading later) :
    part.Agrees session whole reading later :=
  behind [] ran (Nat.le_refl _) next

/-- One part after the other. -/
theorem bind {use : Result -> Descent Other} (first : part.Agrees session meaning reading goOn)
    (next : forall result piece after, session.LeadsTo after ->
      after.table.Fixes result (meaning piece) ->
        (use result).Agrees after whole (goOn piece after.cursor) later) :
    (part >>= use).Agrees session whole reading later := by
  cases first with
  | failed ran same => exact .failed (run_bind_of_none ran) same
  | @returned result piece names cursor ran shorter fixed same =>
      rw [same]
      refine behind names (run_bind_of_some ran) shorter (next result piece _ ⟨?_, shorter⟩ fixed)
      exact session.table.growsTo_insertAll names

/-- A name is entered and its id used. -/
theorem intern_bind {use : SymbolId -> Descent Other} {name : Bytes} {reading : Reading}
    (next : (use (session.table.idOf name)).Agrees
      { session with table := session.table.insert name } whole reading later) :
    (intern name >>= use).Agrees session whole (reading.prepend [name]) later :=
  behind [name] (run_bind_of_some rfl) (Nat.le_refl _) next

theorem reservedId_bind {use : SymbolId -> Descent Other} {form : SpecialForm} {reading : Reading}
    (next : (use (session.table.reservedId form)).Agrees session whole reading later) :
    (reservedId form >>= use).Agrees session whole reading later :=
  of_run_eq (run_bind_of_some rfl) next

/-- The next token is taken.  What the reader finds at the end of the text, a part of
the descent finds in a token. -/
theorem fetch_bind {use : FlatToken -> Descent Other} {state : State} {around : List Hole}
    (onToken : forall token after, session.LeadsTo after ->
      after.cursor.rest.length < session.cursor.rest.length ->
        (use token.flat).Agrees after whole (proceed (state.step token) around after.cursor) later)
    (onFinish : forall pos after, session.LeadsTo after -> (use (.finish pos)).Agrees after whole
      { outcome := .error (state.faultAtEnd pos), names := [], cursor := after.cursor } later) :
    (fetch >>= use).Agrees session whole (Reader.resume state around session.cursor) later := by
  rw [Reader.resume_eq]
  rcases found : session.cursor.next with ⟨scan, after⟩
  have fetched := run_fetch session
  rw [found] at fetched
  cases scan with
  | token token =>
      have shorter := Cursor.length_next_lt_of_token found
      have leads : session.LeadsTo (session.advance [] after) := ⟨.refl _, shorter.le⟩
      exact behind [] (run_bind_of_some fetched) shorter.le (onToken token _ leads shorter)
  | finish pos =>
      have shorter : after.rest.length <= session.cursor.rest.length := by
        have bounded := Cursor.length_next_le session.cursor
        rwa [found] at bounded
      exact behind [] (run_bind_of_some fetched) shorter (onFinish pos _ ⟨.refl _, shorter⟩)
  | flaw pos error => exact .failed (run_bind_of_none fetched) rfl

/-- The closing parenthesis is taken where nothing else is accepted. -/
theorem expectClosing_bind {use : Unit -> Descent Other} {state : State} {around : List Hole}
    {error : SyntaxError}
    (refuses : forall token : Token, token.lexeme ≠ .closing ->
      state.step token = .error (.syntaxAt token.pos error))
    (ends : forall pos, state.faultAtEnd pos = .syntaxAt pos error)
    (onClosing : forall pos after, session.LeadsTo after ->
      after.cursor.rest.length < session.cursor.rest.length ->
        (use ()).Agrees after whole (proceed (state.step ⟨pos, .closing⟩) around after.cursor)
          later) :
    (expectClosing error >>= use).Agrees session whole
      (Reader.resume state around session.cursor) later := by
  rw [expectClosing, bind_assoc]
  apply fetch_bind
  · intro token after leads shorter
    by_cases closed : token.lexeme = .closing
    · rcases token with ⟨pos, lexeme⟩
      cases closed
      exact onClosing pos after leads shorter
    · have other : ¬ token.flat.kind = .closing := mt Token.kind_eq_closing_iff.1 closed
      rw [if_neg other, fail_bind, refuses token closed]
      exact of_fail token.pos error
  · intro pos after _
    rw [if_neg (FlatToken.finish_kind_ne_closing pos), fail_bind, ends]
    exact of_fail pos error

/-- To demote a node is to demote the tree that it stands for. -/
theorem demote_bind {node : Node SymbolId} {tree : Tree}
    (fixed : session.table.Fixes node (nodeOf tree)) {use : Node SymbolId -> Descent Other}
    {reading : Reading}
    (onError : forall pos, tree.demote = .error pos -> reading =
      { outcome := .error (.syntaxAt pos .recurOutsideTail), names := []
        cursor := session.cursor })
    (onDemoted : forall result demoted, tree.demote = .ok demoted ->
      session.table.Fixes result (nodeOf demoted) ->
        (use result).Agrees session whole reading later) :
    (demote node >>= use).Agrees session whole reading later := by
  have mapped (table : SymbolTable) (grows : session.table.GrowsTo table) :
      node.demote = tree.demote.map (Node.map table.resolve) := by
    rw [fixed table grows, nodeOf, Node.demote_map]
  have here := mapped _ (.refl _)
  rw [demote]
  cases demotes : tree.demote with
  | error pos =>
      rw [demotes] at here
      rw [here, onError pos demotes]
      exact .of_fail pos .recurOutsideTail
  | ok demoted =>
      rw [demotes] at here
      rw [here]
      refine onDemoted _ demoted demotes fun table grows => ?_
      have there := mapped table grows
      rw [demotes, here] at there
      exact Except.ok.inj there

end Agrees

end Descent

end TailLisp
